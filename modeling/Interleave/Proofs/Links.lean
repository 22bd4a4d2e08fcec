/-
# Links are first-in first-out

With first-in first-out links, what a node receives from another one comes by
ascending number (`Explorer.receipts_ascending`). Only the eligible tasks respect the
links; when an iteration drains, the tasks go by their own numbers, and that is right
because tasks and messages are numbered in step.

The messages of a link form a lane: those received, then the one being
delivered, then the pending ones (`World.lane`). Posting a message adds it at the end, a
receipt moves the border between the parts, and faults only thin the lane out. Its
numbers ascend all the time (`Orderly.flow`).
-/
import Interleave.Proofs.CutShort
import Interleave.Proofs.Conservation

namespace Interleave

variable {F σ μ : Type} {c : Cluster σ μ} {h h' : Hand μ} {w w' : World σ μ} {p q : NodeId}

/-! ### Lanes -/

/-- The message that the task delivers on the link from `p` to `q`. -/
def Task.arrival? (p q : NodeId) (t : Task μ) : Option MessageId :=
  match t.body with
  | .receive sender _ m => if sender = p ∧ t.owner = q then some m else none
  | _ => none

theorem Task.arrival?_of_body {t : Task μ} {sender : NodeId} {message : μ} {m : MessageId}
    (hbody : t.body = .receive sender message m) (p q : NodeId) :
    t.arrival? p q = if sender = p ∧ t.owner = q then some m else none := by
  simp [arrival?, hbody]

theorem Task.arrival?_eq_some_iff {t : Task μ} {m : MessageId} :
    t.arrival? p q = some m ↔ t.sender? = some p ∧ t.owner = q ∧ t.message? = some m := by
  cases hbody : t.body <;> simp [arrival?, sender?, message?, hbody, and_assoc]

/-- The messages that tasks deliver on the link from `p` to `q`. -/
def arrivals (p q : NodeId) (l : List (Task μ)) : List MessageId := l.filterMap (Task.arrival? p q)

theorem arrivals_append (l l' : List (Task μ)) :
    arrivals p q (l ++ l') = arrivals p q l ++ arrivals p q l' := List.filterMap_append

theorem arrivals_cons (t : Task μ) (l : List (Task μ)) :
    arrivals p q (t :: l) = (t.arrival? p q).toList ++ arrivals p q l := by
  unfold arrivals
  cases hm : t.arrival? p q <;> simp [hm]

/-- Only deliveries deliver. -/
theorem arrivals_deliveries (l : List (Task μ)) : arrivals p q (deliveries l) = arrivals p q l := by
  unfold arrivals deliveries
  rw [List.filterMap_filter]
  refine List.filterMap_congr fun t _ => ?_
  cases hbody : t.body <;> simp [Task.arrival?, Task.kind, hbody]

/-- What the task being executed will deliver. Deliveries that go down with a node do not count. -/
def Hand.arrivals (h : Hand μ) (p q : NodeId) : List MessageId :=
  match h.duty with
  | .fall _ => []
  | _ => Interleave.arrivals p q h.tasks

namespace Hand

theorem arrivals_of (t : Task μ) : (Hand.of t).arrivals p q = (t.arrival? p q).toList :=
  (arrivals_cons t []).trans (List.append_nil _)

theorem arrivals_of_fall {v : NodeId} (hduty : h.duty = .fall v) : h.arrivals p q = [] := by
  simp [arrivals, hduty]

/-- A hand without deliveries delivers nothing. -/
theorem arrivals_of_empty (hempty : deliveries h.tasks = []) : h.arrivals p q = [] := by
  have hnone : Interleave.arrivals p q h.tasks = [] := by
    rw [← arrivals_deliveries, hempty]
    rfl
  unfold arrivals
  split <;> first | rfl | exact hnone

theorem arrivals_sublist (hduty : h'.duty = h.duty)
    (htasks : (deliveries h'.tasks).Sublist (deliveries h.tasks)) :
    (h'.arrivals p q).Sublist (h.arrivals p q) := by
  have hsub : (Interleave.arrivals p q h'.tasks).Sublist (Interleave.arrivals p q h.tasks) := by
    rw [← arrivals_deliveries, ← arrivals_deliveries h.tasks]
    exact htasks.filterMap _
  unfold arrivals
  rw [hduty]
  split <;> first | exact List.Sublist.refl _ | exact hsub

end Hand

namespace World

theorem receipts_append {new : List Occurrence} (hlog : w'.events = w.events ++ new)
    (p q : NodeId) :
    w'.receipts p q = w.receipts p q ++ new.filterMap (Occurrence.receipt? p q) := by
  rw [receipts, hlog, List.filterMap_append]
  rfl

/-- Events about no message are no receipts. -/
theorem receipts_eq_of_quiet {new : List Occurrence} (hlog : w'.events = w.events ++ new)
    (hnew : ∀ o ∈ new, o.event.message? = none) (p q : NodeId) :
    w'.receipts p q = w.receipts p q := by
  have hnone : new.filterMap (Occurrence.receipt? p q) = [] := by
    refine List.filterMap_eq_nil_iff.mpr fun o ho => ?_
    have hmessage := hnew o ho
    cases hevent : o.event <;> simp_all [Occurrence.receipt?, Event.message?]
  rw [receipts_append hlog, hnone, List.append_nil]

/-- The messages on the link from `p` to `q`: received, being delivered, and pending. -/
def lane (w : World σ μ) (h : Hand μ) (p q : NodeId) : List MessageId :=
  w.receipts p q ++ h.arrivals p q ++ arrivals p q w.pending.tasks

end World

/-! ### Order -/

/-- The numbers ascend on every lane, below the next number. -/
structure Orderly (h : Hand μ) (w : World σ μ) : Prop where
  numbered : w.Numbered
  sorted : ∀ p q, (w.lane h p q).Pairwise (· < ·)
  below : ∀ p q, ∀ m ∈ w.lane h p q, m < w.nextMessage

namespace Orderly

theorem receipts (ho : Orderly h w) (p q : NodeId) : (w.receipts p q).Pairwise (· < ·) := by
  have hlane := ho.sorted p q
  rw [World.lane, List.append_assoc] at hlane
  exact (List.pairwise_append.mp hlane).1

/-- Lanes may be thinned out. -/
theorem less (ho : Orderly h w) (hw : w'.Numbered)
    (hnumber : ∀ m, m < w.nextMessage → m < w'.nextMessage)
    (hlane : ∀ p q, (w'.lane h' p q).Sublist (w.lane h p q)) : Orderly h' w' where
  numbered := hw
  sorted p q := (ho.sorted p q).sublist (hlane p q)
  below p q m hm := hnumber m (ho.below p q m ((hlane p q).subset hm))

theorem reset (hsize : c.size < UInt32.size) (w : World σ μ) : Orderly .free (w.reset c) := by
  have hnone : ∀ p q, (w.reset c).lane .free p q = [] := fun p q => by
    refine List.filterMap_eq_nil_iff.mpr fun t ht => ?_
    obtain ⟨i, -, rfl⟩ := List.mem_map.mp ht
    rfl
  refine ⟨World.numbered_reset hsize w, fun p q => ?_, fun p q m hm => ?_⟩
  · rw [hnone]
    exact .nil
  · rw [hnone] at hm
    cases hm

/-- The count of instances does not matter. -/
theorem forget (ho : Orderly h w) : Orderly h w.forget :=
  ⟨ho.numbered.congr rfl rfl rfl, ho.sorted, ho.below⟩

/-- A message that is given its number goes to the end of its lane. -/
theorem of_posted (ho : Orderly h w) (hw : w'.Numbered)
    (hnumber : w.nextMessage.next? = some w'.nextMessage)
    (hlane : ∀ p q, w'.lane h p q = w.lane h p q ∨ w'.lane h p q = w.lane h p q ++ [w.nextMessage]) :
    Orderly h w' := by
  have hup : ∀ m, m < w.nextMessage ∨ m = w.nextMessage → m < w'.nextMessage :=
    fun m => (MessageId.lt_iff_of_next? hnumber).mpr
  refine ⟨hw, fun p q => ?_, fun p q m hm => hup m ?_⟩
  · rcases hlane p q with heq | heq
    · exact heq ▸ ho.sorted p q
    · rw [heq]
      refine List.pairwise_append.mpr ⟨ho.sorted p q, List.pairwise_singleton _ _, ?_⟩
      intro m hm m' hm'
      cases List.mem_singleton.mp hm'
      exact ho.below p q m hm
  · rcases hlane p q with heq | heq
    · exact .inl (ho.below p q m (heq ▸ hm))
    · rw [heq] at hm
      rcases List.mem_append.mp hm with hm | hm
      · exact .inl (ho.below p q m hm)
      · exact .inr (List.mem_singleton.mp hm)

/-- Every change keeps the order of the lanes. -/
theorem flow (ho : Orderly h w) (hw : w'.Numbered) (flow : Flow c h w h' w') : Orderly h' w' := by
  have hsame : ∀ (p q : NodeId) {l l' : List (Task μ)}, deliveries l' = deliveries l →
      arrivals p q l' = arrivals p q l := fun p q l l' heq => by
    rw [← arrivals_deliveries l', heq, arrivals_deliveries]
  cases flow with
  | still number log hand duty pending =>
    obtain ⟨new, hlog, hnew⟩ := log
    refine ho.less hw (fun m hm => number ▸ hm) fun p q => ?_
    unfold World.lane
    rw [World.receipts_eq_of_quiet hlog hnew, hsame p q pending]
    refine List.Sublist.append ((List.Sublist.refl _).append ?_) (List.Sublist.refl _)
    rcases duty with duty | hempty
    · exact Hand.arrivals_sublist duty (hand ▸ List.Sublist.refl _)
    · rw [Hand.arrivals_of_empty (hand.trans hempty)]
      exact List.nil_sublist _
  | crash v number log empty duty moved rest =>
    obtain ⟨new, hlog, hnew⟩ := log
    refine ho.less hw (fun m hm => number ▸ hm) fun p q => ?_
    unfold World.lane
    rw [World.receipts_eq_of_quiet hlog hnew, Hand.arrivals_of_fall duty]
    refine List.Sublist.append ((List.Sublist.refl _).append (List.nil_sublist _)) ?_
    rw [← arrivals_deliveries, ← arrivals_deliveries w.pending.tasks]
    exact rest.filterMap _
  | refuse sender target message number log hand pending =>
    subst hand
    refine ho.of_posted hw number fun p q => .inl ?_
    unfold World.lane
    rw [World.receipts_append log, hsame p q pending]
    simp [Occurrence.receipt?]
  | post t sender message id body number log hand pending =>
    subst hand
    refine ho.of_posted hw number fun p q => ?_
    have hreceipts : w'.receipts p q = w.receipts p q := by
      rw [World.receipts_append log]
      simp [Occurrence.receipt?]
    have hpending : arrivals p q w'.pending.tasks =
        arrivals p q w.pending.tasks ++ (t.arrival? p q).toList := by
      rw [← arrivals_deliveries, pending, arrivals_append, arrivals_deliveries, arrivals_cons]
      exact congrArg _ (List.append_nil _)
    unfold World.lane
    rw [hreceipts, hpending, Task.arrival?_of_body body]
    split
    · exact .inr (List.append_assoc ..).symm
    · exact .inl (by simp)
  | lose t sender message m body number log hand duty pending =>
    refine ho.less hw (fun m hm => number ▸ hm) fun p q => ?_
    have hreceipts : w'.receipts p q = w.receipts p q := by
      rw [World.receipts_append log]
      simp [Occurrence.receipt?]
    unfold World.lane
    rw [hreceipts, pending]
    refine List.Sublist.append ((List.Sublist.refl _).append ?_) (List.Sublist.refl _)
    exact Hand.arrivals_sublist duty (hand ▸ List.sublist_cons_self _ _)
  | receive t sender message m body number log before after pending =>
    subst before after
    -- the message crosses the border between what is delivered and what was received
    have hlane : ∀ p q, w'.lane .free p q = w.lane (.of t) p q := fun p q => by
      unfold World.lane
      rw [World.receipts_append log, pending, Hand.arrivals_of, Task.arrival?_of_body body]
      by_cases hlink : sender = p ∧ t.owner = q
      · simp [Occurrence.receipt?, hlink, Hand.arrivals, Hand.free, arrivals]
      · simp [Occurrence.receipt?, hlink, Hand.arrivals, Hand.free, arrivals]
    exact ho.less hw (fun m hm => number ▸ hm) fun p q => hlane p q ▸ List.Sublist.refl _

theorem change (ho : Orderly h w) (change : Change c h w h' w') : Orderly h' w' :=
  ho.flow (ho.numbered.change change) (change.flow ho.numbered)

theorem changes (ho : Orderly h w) (changes : Changes c h w h' w') : Orderly h' w' :=
  changes.keeps (P := Orderly) (fun step ho => ho.change step) ho

/-- What an abort leaves has the receipts of an orderly state. -/
theorem receipts_of_leaves {v : NodeId} {e : Abort} (ho : Orderly h w) (leaves : Leaves v e w w')
    (p q : NodeId) : (w'.receipts p q).Pairwise (· < ·) := by
  cases leaves with
  | whole _ same => exact same ▸ ho.receipts p q
  | broken breaks => exact breaks.receipts p q ▸ ho.receipts p q

end Orderly

/-! ### Tasks that respect the links -/

/-- With first-in first-out links no eligible task has to wait. -/
theorem Rule.waits_of_eligible {finished : Option TaskView} {pending : List TaskView} {t : TaskView}
    (ht : t ∈ pending) (h : Rule.eligible .fifo finished pending t) :
    Tree.waits pending t = false := by
  obtain ⟨u, hu, hid⟩ := Tree.mem_eligible.mp h
  have hheld := (List.mem_filter.mp hu).2
  rw [Bool.and_eq_true, Bool.and_eq_true, Bool.not_eq_true', hid] at hheld
  by_contra hwaits
  have hmem : t.id ∈ (pending.filter (Tree.waits pending)).map (·.id) :=
    List.mem_map_of_mem (List.mem_filter.mpr ⟨ht, by simpa using hwaits⟩)
  have hcontains := hheld.1.2
  rw [List.contains_eq_mem, decide_eq_false_iff_not] at hcontains
  exact hcontains hmem

/-- A pending task between those before it and those after it. -/
theorem World.Numbered.split_of_take (hw : w.Numbered) {id : TaskId} {t : Task μ}
    {pending : Pending μ} (htake : w.pending.take id = some (t, pending)) :
    t.id = id ∧ ∃ before after, w.pending.tasks = before ++ t :: after ∧
      pending.tasks = before ++ after := by
  obtain ⟨hget, rfl⟩ := Pending.take_eq_some_iff.mp htake
  obtain ⟨hid, before, after, heq, hbefore⟩ := List.find?_eq_some_iff_append.mp hget
  have hid : t.id = id := by simpa using hid
  have hbefore : ∀ u ∈ before, u.id ≠ id := by simpa using hbefore
  have hsorted := hw.sorted
  rw [heq, List.pairwise_append, List.pairwise_cons] at hsorted
  have hafter : ∀ u ∈ after, u.id ≠ id := fun u hu hu' => by
    have hlt : id < id := by simpa [hid, hu'] using hsorted.2.1.1 u hu
    exact Nat.lt_irrefl id.number hlt
  refine ⟨hid, before, after, heq, ?_⟩
  show w.pending.tasks.filter (fun u => u.id ≠ id) = _
  rw [heq, List.filter_append, List.filter_cons_of_neg (by simp [hid]),
    List.filter_eq_self.mpr (by simpa using hbefore), List.filter_eq_self.mpr (by simpa using hafter)]

namespace Orderly

/-- What an iteration executes next does not have to wait. -/
theorem waits_of_driven (ho : Orderly .free w) {t : Task μ} (hget : w.pending.get? t.id = some t)
    {finished : Option TaskView} (hrule : Rule.driven .fifo finished w.pending.views t.view) :
    Tree.waits w.pending.views t.view = false := by
  rcases hrule with heligible | hlowest
  · exact Rule.waits_of_eligible (List.mem_map_of_mem (List.mem_of_find?_eq_some hget)) heligible
  · -- the lane ascends, so nothing pending is older than the task with the lowest number
    have hhead : w.pending.views.head?.map TaskView.id = some t.id := hlowest
    rw [Pending.first?_eq_head?, Pending.first?] at hhead
    rcases hpending : w.pending.tasks with _ | ⟨u, after⟩
    · rw [hpending] at hhead
      cases hhead
    rw [hpending] at hhead
    have hid : u.id = t.id := Option.some.inj hhead
    obtain rfl : u = t := by
      rw [Pending.get?, hpending, List.find?_cons_of_pos (by simpa using hid)] at hget
      exact Option.some.inj hget
    by_contra hwaits
    obtain ⟨p, m, hsender, hmessage, x, hx, hxsender, hxowner, m', hxmessage, hlt⟩ :=
      Tree.waits_iff.mp (by simpa using hwaits)
    have hm : u.arrival? p u.owner = some m :=
      Task.arrival?_eq_some_iff.mpr ⟨hsender, rfl, hmessage⟩
    have hm' : x.arrival? p u.owner = some m' :=
      Task.arrival?_eq_some_iff.mpr ⟨hxsender, hxowner, hxmessage⟩
    have hsorted := (List.pairwise_append.mp (ho.sorted p u.owner)).2.1
    rw [hpending, arrivals_cons, hm] at hsorted
    rw [hpending] at hx
    rcases List.mem_cons.mp hx with rfl | hx
    · rw [hm] at hm'
      cases hm'
      exact Nat.lt_irrefl _ hlt
    · have hafter := (List.pairwise_append.mp hsorted).2.2 m (by simp) m'
        (List.mem_filterMap.mpr ⟨x, hx, hm'⟩)
      exact Nat.lt_asymm hlt hafter

/-- No pending delivery on the link of a task that does not have to wait stands before it. -/
theorem arrivals_before (ho : Orderly .free w) {t : Task μ} {before after : List (Task μ)}
    (hsplit : w.pending.tasks = before ++ t :: after)
    (hwaits : Tree.waits w.pending.views t.view = false) {m : MessageId}
    (hm : t.arrival? p q = some m) : arrivals p q before = [] := by
  -- it would be older, as the lane ascends, and the task would have to wait for it
  refine List.eq_nil_iff_forall_not_mem.mpr fun m' hm' => ?_
  obtain ⟨u, hu, hum⟩ := List.mem_filterMap.mp hm'
  have hlt : m' < m := by
    have hsorted := (List.pairwise_append.mp (ho.sorted p q)).2.1
    rw [hsplit, arrivals_append, arrivals_cons, hm] at hsorted
    exact (List.pairwise_append.mp hsorted).2.2 m' hm' m (by simp)
  obtain ⟨hsender, howner, hmessage⟩ := Task.arrival?_eq_some_iff.mp hm
  obtain ⟨husender, huowner, humessage⟩ := Task.arrival?_eq_some_iff.mp hum
  have huw : u ∈ w.pending.tasks := hsplit ▸ List.mem_append_left _ hu
  rw [Tree.waits_iff.mpr ⟨p, m, hsender, hmessage, u, huw, husender, huowner.trans howner.symm,
    m', humessage, hlt⟩] at hwaits
  cases hwaits

/-- **A task taken when it does not have to wait** keeps the lanes: it is the first pending one on its
link. -/
theorem take (ho : Orderly .free w) {id : TaskId} {t : Task μ} {pending : Pending μ}
    (htake : w.pending.take id = some (t, pending))
    (hwaits : Tree.waits w.pending.views t.view = false) :
    Orderly (.of t) { w with pending := pending } := by
  obtain ⟨rfl, before, after, hsplit, hrest⟩ := ho.numbered.split_of_take htake
  have hlane : ∀ p q, World.lane { w with pending := pending } (.of t) p q = w.lane .free p q := by
    intro p q
    show w.receipts p q ++ (Hand.of t).arrivals p q ++ arrivals p q pending.tasks =
      w.receipts p q ++ [] ++ arrivals p q w.pending.tasks
    rw [Hand.arrivals_of, hrest, hsplit, arrivals_append, arrivals_append, arrivals_cons]
    cases hm : t.arrival? p q with
    | none => simp
    | some m => simp [ho.arrivals_before hsplit hwaits hm]
  exact ho.less (ho.numbered.of_take htake).2 (fun _ hm => hm) fun p q => hlane p q ▸ .refl _

end Orderly

/-! ### Farewells -/

/-- No request is a receipt. -/
theorem Request.receipts_eq {v : NodeId} (request : Request c v w w') (p q : NodeId) :
    w'.receipts p q = w.receipts p q := by
  cases request with
  | lose message target known clock ticks number cut =>
    simp [World.recorded, World.dispatched, Step.ticked, World.receipts, Occurrence.receipt?]
  | @post w₁ k k' next nextTask ids message target known clock ticks number reached place offered =>
    obtain ⟨candidates, hattached⟩ := World.attached_eq w₁ w.nextMessage ids
    have hevents : w₁.events = (w.dispatched c v message target k' next).events := offered.events_eq
    rw [hattached]
    show w₁.events.filterMap _ = _
    rw [hevents]
    simp [World.recorded, World.dispatched, Step.ticked, World.receipts, Occurrence.receipt?]
  | note text => simp [World.recorded, World.receipts, Occurrence.receipt?]
  | conclude real ends queued =>
    obtain ⟨a, rs, -, -, -, -, rfl⟩ := ends
    have hended : ∀ i result, (w.ended v a i rs result).receipts p q = w.receipts p q := by
      intro i result
      simp [World.ended, World.recorded, World.receipts, Occurrence.receipt?]
    obtain ⟨a', -, hqueued⟩ := queued
    split at hqueued
    · obtain ⟨k, k', next, -, -, -, rfl⟩ := hqueued
      exact hended _ _
    · rw [hqueued]
      exact hended _ _
  | start => rfl
  | lend => rfl

/-- With nothing in the hand, no change is a receipt. -/
theorem Changes.receipts_eq_of_free (changes : Changes c .free w h' w') :
    h' = .free ∧ ∀ p q, w'.receipts p q = w.receipts p q := by
  induction changes with
  | refl => exact ⟨rfl, fun _ _ => rfl⟩
  | tail _ last ih =>
    obtain ⟨hfree, hreceipts⟩ := ih
    cases last with
    | request _ does => exact ⟨hfree, fun p q => (does.receipts_eq p q).trans (hreceipts p q)⟩
    | prune => exact ⟨hfree, hreceipts⟩
    | close v =>
      refine ⟨rfl, fun p q => ?_⟩
      rw [World.receipts_recorded, hreceipts]
      exact List.append_nil _
    | _ => cases hfree

/-- A node that is told that the scenario is over receives nothing. -/
theorem Step.receipts_of_farewell {v : NodeId} {r : Except Abort Unit}
    (hrun : Step.farewell c v w = (r, w')) (p q : NodeId) : w'.receipts p q = w.receipts p q := by
  cases r with
  | ok u => exact ((Step.unfolds_farewell v w).done hrun).receipts_eq_of_free.2 p q
  | error e =>
    obtain ⟨h₁, w₁, hchanges, hleaves, -⟩ := (Step.unfolds_farewell v w).cut hrun
    have hbefore := hchanges.receipts_eq_of_free.2 p q
    cases hleaves with
    | whole _ same => rw [same, hbefore]
    | broken breaks => rw [breaks.receipts, hbefore]

namespace Walker

theorem receipts_of_tellAll {p q : NodeId} : ∀ {l : List NodeId} {r : Option Abort}
    {w w' : World σ μ}, tellAll c l w = (r, w') → w'.receipts p q = w.receipts p q
  | [], r, w, w', hrun => by
    cases hrun
    rfl
  | v :: l, r, w, w', hrun => by
    unfold tellAll at hrun
    rcases hfarewell : Step.farewell c v w with ⟨result, w₁⟩
    have hfirst := Step.receipts_of_farewell hfarewell p q
    rcases hrest : tellAll c l w₁ with ⟨r', w₂⟩
    have hlast := receipts_of_tellAll (p := p) (q := q) hrest
    rw [hfarewell] at hrun
    rw [← hfirst]
    split at hrun
    · rename_i heq
      cases heq
      rw [hrest] at hrun
      cases hrun
      exact hlast
    · rename_i heq
      cases heq
      cases hrun
      rfl
    · rename_i heq
      cases heq
      rw [hrest] at hrun
      split at hrun
      · rename_i heq
        cases heq
        cases hrun
        exact hlast
      · rename_i heq
        cases heq
        cases hrun
        exact hlast

end Walker

namespace Orderly

theorem tellAll {l : List NodeId} (ho : Orderly .free w) (hrun : Walker.tellAll c l w = (none, w')) :
    Orderly .free w' :=
  Walker.keeps_of_tellAll (I := Orderly .free)
    (fun hw hfarewell => hw.changes ((Step.unfolds_farewell _ _).done hfarewell)) hrun ho

/-! ### Schedules that respect the links -/

variable {finished : Option TaskView} {ts : List (Task μ)} {t : Task μ} {e : Abort}

theorem advance (ho : Orderly .free w) (hwaits : Tree.waits w.pending.views t.view = false)
    (hrun : Step.advance c t.id w = (.ok t, w')) : Orderly .free w' := by
  obtain ⟨pending, htake, hchanges⟩ := Step.changes_of_advance hrun
  exact (ho.take htake hwaits).changes hchanges

theorem receipts_of_fails (ho : Orderly .free w) (hfails : Fails c (.driven .fifo) finished w t e w')
    (p q : NodeId) : (w'.receipts p q).Pairwise (· < ·) := by
  rcases Step.exists_changes_of_error hfails.run with
    ⟨-, rfl⟩ | ⟨u, pending, h₁, w₁, htake, hchanges, hleaves, -⟩
  · exact ho.receipts p q
  · obtain ⟨hget, -⟩ := Pending.take_eq_some_iff.mp htake
    obtain rfl := Option.some.inj (hget.symm.trans hfails.pending)
    have hwaits := ho.waits_of_driven hfails.pending hfails.allowed
    exact ((ho.take htake hwaits).changes hchanges).receipts_of_leaves hleaves p q

/-- **Executing tasks as the rules say keeps the order of the lanes.** -/
theorem schedule (ho : Orderly .free w) (hschedule : Schedule c (.driven .fifo) finished w ts w') :
    Orderly .free w' := by
  induction hschedule with
  | nil => exact ho
  | cons allowed done rest ih =>
    obtain ⟨pending, htake, -⟩ := Step.advance_ok_iff.mp done
    have hget := (Pending.take_eq_some_iff.mp htake).1
    exact ih (ho.advance (ho.waits_of_driven hget allowed) done)

theorem receipts_of_falters (ho : Orderly .free w)
    (hfalters : Falters c (.driven .fifo) finished w ts t e w') (p q : NodeId) :
    (w'.receipts p q).Pairwise (· < ·) := by
  obtain ⟨w₁, hschedule, hfails⟩ := hfalters
  exact (ho.schedule hschedule).receipts_of_fails hfails p q

/-- Draining goes by the numbers of the tasks, which are handed out in step with the messages. -/
theorem drains (ho : Orderly .free w) (hdrains : Drains c w ts w') : Orderly .free w' :=
  ho.schedule (hdrains.schedule.mono fun _ _ _ hlowest => .inr hlowest)

theorem receipts_of_lapses {time : Nat} (ho : Orderly .free w) (hlapses : Lapses c time w e w')
    (p q : NodeId) : (w'.receipts p q).Pairwise (· < ·) := by
  cases hlapses with
  | told told => exact Walker.receipts_of_tellAll told ▸ ho.receipts p q
  | drained told falters inTime =>
    exact (ho.tellAll told).receipts_of_falters (falters.mono fun _ _ _ hlowest => .inr hlowest) p q

end Orderly

/-! ### Iterations -/

variable [Share F] {verifier : Verifier} {e : Abort}

theorem Iteration.CutOff.receipts {ts : List (Task μ)} (hcut : CutOff c e ts w')
    (hfifo : c.config.order = .fifo) (hstart : Orderly .free (Spot.start c).world) (p q : NodeId) :
    (w'.receipts p q).Pairwise (· < ·) := by
  cases hcut with
  | task falters inTime => exact hstart.receipts_of_falters (hfifo ▸ falters) p q
  | ending schedule empty lapses inTime =>
    exact (hstart.schedule (hfifo ▸ schedule)).receipts_of_lapses lapses p q

theorem Iteration.Records.receipts {s : Spot σ μ} {it : Iteration}
    (hrecords : Records c verifier s w it) (hreached : s.Reached c)
    (hfifo : c.config.order = .fifo) (hstart : Orderly .free (Spot.start c).world) (p q : NodeId) :
    (w.receipts p q).Pairwise (· < ·) := by
  obtain ⟨ts, w₁, us, hdrains, ⟨w₂, htold, hdrains'⟩, -, -⟩ := hrecords.course
  have hexecuted : Orderly .free s.world :=
    hstart.schedule ((hfifo ▸ hreached.mono fun _ _ _ heligible => .inl heligible :
      Schedule c (.driven .fifo) none (Spot.start c).world s.tasks s.world))
  exact (((hexecuted.drains hdrains).tellAll htold).drains hdrains').receipts p q

namespace Explorer

theorem Reachable.accept {x : Explorer F σ μ} (hx : Reachable c verifier x) :
    c.toSetup.accept = .ok () := by
  induction hx with
  | new hnew => exact (eq_fresh_of_new hnew).2
  | run _ ih => exact ih
  | replay _ _ ih => exact ih

/-- **First-in first-out links deliver in order.** In every iteration of a run, whether its tasks
come from a path, are canonical choices or are drained, and however it ends, the messages that a
node receives from another one come by ascending number. -/
theorem receipts_ascending (hc : c.registry.Deterministic) (hfifo : c.config.order = .fifo)
    {x : Explorer F σ μ} (hx : Reachable c verifier x) {it : Iteration}
    (hit : it ∈ x.run.1.history) (p q : NodeId) :
    (it.trace.filterMap (Occurrence.receipt? p q)).Pairwise (· < ·) := by
  have hsize : c.size < UInt32.size := Setup.size_lt_of_accept hx.accept
  have hstart : Orderly .free (Spot.start c).world := (Orderly.reset hsize _).forget
  obtain ⟨z, hz, rfl, -⟩ := hx.mem_run hc hit
  obtain ⟨spot, hchart⟩ := hz.chart
  obtain ⟨spot', -, hwalks⟩ := walks_course hc hz.cluster hchart
  rw [hz.iterate_fst]
  rcases hcourse : z.course with ⟨e | b, mid, last⟩
  · by_cases he : e = .timeout
    · subst he
      exact .nil
    · obtain ⟨hblame, ts, hcut, -⟩ := hz.cutOff_of_course hc he hcourse
      obtain ⟨-, htrace, -⟩ := Iteration.close_of_error c verifier true he hblame mid last
      rw [htrace]
      exact hcut.receipts hfifo hstart p q
  · obtain ⟨n, w, hn, -, hrecords, -, -⟩ := hwalks.records hc (by rw [hcourse]) verifier
    rw [hcourse] at hrecords
    rw [hrecords.trace]
    exact hrecords.receipts (hwalks.chart.reached n hn) hfifo hstart p q

end Explorer

/-- Two peers with first-in first-out links, of which the first one has two values to broadcast. -/
def Broadcast.ordered : Cluster Broadcast.Peer String :=
  { Broadcast.pair with
    config := { Config.default with order := .fifo }
    scenario := ⟨[[.named "send" ["a"], .named "send" ["b"]], []]⟩ }

theorem Explorer.receipts_ascending_ordered :
    ∃ it ∈ (fresh Broadcast.ordered .rejectAll : Explorer Float _ _).run.1.history,
      it.trace.filterMap (Occurrence.receipt? ⟨0⟩ ⟨1⟩) = [⟨0⟩, ⟨1⟩] ∧
      (it.trace.filterMap (Occurrence.receipt? ⟨0⟩ ⟨1⟩)).Pairwise (· < ·) := by
  have hc : Broadcast.ordered.registry.Deterministic := Broadcast.deterministic_pair
  have hx : Reachable Broadcast.ordered .rejectAll
      (fresh Broadcast.ordered .rejectAll : Explorer Float _ _) := .new (new_eq_fresh rfl)
  obtain ⟨it, hit, hreceipts⟩ : ∃ it ∈ (fresh Broadcast.ordered .rejectAll :
      Explorer Float _ _).run.1.history,
      it.trace.filterMap (Occurrence.receipt? ⟨0⟩ ⟨1⟩) = [⟨0⟩, ⟨1⟩] := by decide +kernel
  exact ⟨it, hit, hreceipts, receipts_ascending hc rfl hx hit _ _⟩

end Interleave
