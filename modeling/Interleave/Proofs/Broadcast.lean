/-
# Broadcast never delivers twice

A peer sends each value to every other peer once, and no operation is started twice,
not even after a crash. So if no two operations of a node broadcast the same value,
a value of a sender is on its way to a peer, or was delivered there, at most once;
and it is the value of an operation that its sender has started (`Broadcast.Once`). The
value of the next operation is a new one then, so everything that a task does keeps
this (`Broadcast.Once.episode`).

What a node was given before a crash is forgotten. A node that comes back starts
with nothing delivered, and what is still on its way to it was not delivered before.
So every live node accepts its state in all states reached, and no pending task fails
(`Broadcast.never_delivers_twice`).
-/
import Interleave.Proofs.Episode
import Interleave.Proofs.LogBound
import Interleave.Simulation

namespace Interleave

namespace Broadcast

/-! ### Clusters of peers -/

/-- What an operation broadcasts. -/
def value (operation : Operation) : String := operation.args.headD operation.name

/-- All nodes are peers, which start with nothing delivered. -/
structure Peers (c : Cluster Peer String) : Prop where
  protocol : c.protocol = protocol
  initial : ∀ g ∈ c.registry.groups, ∀ v n, g.make v n = Peer.initial

/-- No node broadcasts the same value twice. -/
def Distinct (c : Cluster Peer String) : Prop := ∀ v, ((c.operations v).map value).Nodup

namespace Peers

variable {c : Cluster Peer String} {v : NodeId}

theorem onOperation_eq (hc : Peers c) (operation : Operation) (x : Peer) :
    c.protocol.onOperation (c.site v) operation x =
      .sendAll (value operation) (c.site v).others (.done (x, .ok .void)) := by
  rw [hc.protocol]
  rfl

theorem onMessage_eq (hc : Peers c) (message : String) (sender : NodeId) (x : Peer) :
    c.protocol.onMessage (c.site v) message sender x =
      .done (⟨x.delivered ++ [(message, sender)]⟩, .ok ()) := by
  rw [hc.protocol]
  rfl

theorem eq_initial {n : Nat} {x : Peer} (hc : Peers c) (h : c.registry.spawn? v n = some x) :
    x = Peer.initial := by
  obtain ⟨g, hg, rfl⟩ := Option.map_eq_some_iff.mp h
  exact hc.initial g (Registry.mem_of_groupFrom hg) v n

theorem placid (hc : Peers c) : c.Placid := by
  intro v x
  rw [hc.protocol]
  exact ⟨rfl, rfl, rfl⟩

end Peers

theorem nodup_others {c : Cluster Peer String} (hsize : c.size < UInt32.size) (v : NodeId) :
    (c.site v).others.Nodup := by
  refine List.Nodup.filter _ (List.Nodup.map_on (fun i hi j hj heq => ?_) List.nodup_range)
  have hi' : i < UInt32.size := Nat.lt_trans (List.mem_range.mp hi) hsize
  have hj' : j < UInt32.size := Nat.lt_trans (List.mem_range.mp hj) hsize
  rw [← NodeId.index_ofIndex hi', ← NodeId.index_ofIndex hj', heq]

/-! ### What is delivered and on its way -/

/-- What a task would deliver to node `q`, and from whom. -/
def letter? (q : NodeId) (t : Task String) : Option (String × NodeId) :=
  match t.body with
  | .receive sender message _ => if t.owner = q then some (message, sender) else none
  | _ => none

/-- What is on its way to node `q`. -/
def mail (q : NodeId) (posts : List (Task String)) : List (String × NodeId) :=
  posts.filterMap (letter? q)

/-- What was delivered to node `q` since it was put in place. -/
def held (w : World Peer String) (q : NodeId) : List (String × NodeId) :=
  (w.instances[q.index]?.join.map Peer.delivered).getD []

/-- All that node `q` has and that is on its way to it. -/
def inbox (posts : List (Task String)) (w : World Peer String) (q : NodeId) :
    List (String × NodeId) := held w q ++ mail q posts

/-- How many operations of node `v` were started. -/
def started (w : World Peer String) (v : NodeId) : Nat := (w.results[v.index]?.map List.length).getD 0

/-- The sender has started an operation that broadcasts the value. -/
def Told (c : Cluster Peer String) (w : World Peer String) (e : String × NodeId) : Prop :=
  ∃ i operation, i < started w e.2 ∧ (c.operations e.2)[i]? = some operation ∧ value operation = e.1

section

variable {w w' : World Peer String} {posts posts' : List (Task String)} {q v : NodeId}

theorem mail_subperm (h : posts'.Subperm posts) (q : NodeId) : (mail q posts').Subperm (mail q posts) := by
  obtain ⟨l, hperm, hsub⟩ := h
  exact (hperm.filterMap _).symm.subperm.trans (hsub.filterMap _).subperm

theorem mail_append (q : NodeId) : mail q (posts' ++ posts) = mail q posts' ++ mail q posts :=
  List.filterMap_append

theorem held_of_present {x : Peer} (hx : w.instances[q.index]? = some (some x)) :
    held w q = x.delivered := by
  simp [held, hx]

theorem held_congr (h : w'.instances = w.instances) (q : NodeId) : held w' q = held w q := by
  rw [held, held, h]

theorem held_of_ne {x : Option Peer} (h : w'.instances = w.instances.set v.index x) (hq : q ≠ v) :
    held w' q = held w q := by
  have hne : v.index ≠ q.index := fun heq => hq (NodeId.index_inj.mp heq.symm)
  rw [held, held, h, List.getElem?_set_ne hne]

/-- A node that is taken away or put in place anew has nothing. -/
theorem held_sublist {x : Option Peer} (h : w'.instances = w.instances.set v.index x)
    (hx : ∀ y, x = some y → y = Peer.initial) (q : NodeId) : (held w' q).Sublist (held w q) := by
  by_cases hq : q = v
  · subst hq
    have hnone : held w' q = [] := by
      unfold held
      rw [h, List.getElem?_set_self']
      cases w.instances[q.index]? with
      | none => rfl
      | some y =>
        cases x with
        | none => rfl
        | some z =>
          rw [hx z rfl]
          rfl
    rw [hnone]
    exact List.nil_sublist _
  · rw [held_of_ne h hq]

theorem started_congr (h : w'.results = w.results) (v : NodeId) : started w' v = started w v := by
  rw [started, started, h]

theorem started_of_results {rs : List Answer} (h : w.results[v.index]? = some rs) :
    started w v = rs.length := by
  simp [started, h]

theorem started_begun {a : Agenda} {i next : UInt64} {text : String} {rs : List Answer}
    (h : w.results[v.index]? = some rs) : started (w.begun v a i next text) v = rs.length + 1 := by
  have hresults : (w.begun v a i next text).results = w.results.modify v.index (· ++ [.missing]) := rfl
  simp [started, hresults, h]

theorem owner_of_letter? {t : Task String} {e : String × NodeId} (h : letter? q t = some e) :
    t.owner = q := by
  unfold letter? at h
  split at h
  · split at h
    · assumption
    · cases h
  · cases h

/-- A message to several nodes is on its way to each of them at most once. -/
theorem mail_of_posted {ds : List (Task String)} {message : String}
    (howners : (ds.map Task.owner).Nodup) (hbodies : ∀ d ∈ ds, ∃ m, d.body = .receive v message m)
    (q : NodeId) : (mail q ds).Nodup ∧ ∀ e ∈ mail q ds, e = (message, v) := by
  induction ds with
  | nil => exact ⟨List.nodup_nil, nofun⟩
  | cons d ds ih =>
    obtain ⟨m, hbody⟩ := hbodies d List.mem_cons_self
    obtain ⟨hfresh, hrest⟩ := List.nodup_cons.mp howners
    by_cases hq : d.owner = q
    · have hcons : mail q (d :: ds) = (message, v) :: mail q ds := by simp [mail, letter?, hbody, hq]
      have hnone : mail q ds = [] := by
        refine List.eq_nil_iff_forall_not_mem.mpr fun e he => hfresh ?_
        obtain ⟨u, hu, hletter⟩ := List.mem_filterMap.mp he
        rw [hq, ← owner_of_letter? hletter]
        exact List.mem_map_of_mem hu
      rw [hcons, hnone]
      simp
    · have hskip : mail q (d :: ds) = mail q ds := by simp [mail, letter?, hbody, hq]
      rw [hskip]
      exact ih hrest fun u hu => hbodies u (List.mem_cons_of_mem d hu)

end

/-- No value of a sender is twice among what a node has and what is on its way to it, and all of it
comes from operations that were started. -/
structure Once (c : Cluster Peer String) (posts : List (Task String)) (w : World Peer String) :
    Prop where
  distinct : ∀ q, (inbox posts w q).Nodup
  told : ∀ q, ∀ e ∈ inbox posts w q, Told c w e

namespace Once

variable {c : Cluster Peer String} {w w' : World Peer String} {posts posts' : List (Task String)}
  {v : NodeId} {t : Task String}

/-- Each node may be sent something that it neither has nor is on its way to it. -/
theorem add (h : Once c posts w) (new : NodeId → List (String × NodeId))
    (hstarted : ∀ v, started w v ≤ started w' v)
    (hsub : ∀ q, (inbox posts' w' q).Subperm (new q ++ inbox posts w q))
    (hnodup : ∀ q, (new q).Nodup) (hfresh : ∀ q, ∀ e ∈ new q, e ∉ inbox posts w q)
    (htold : ∀ q, ∀ e ∈ new q, Told c w' e) : Once c posts' w' where
  distinct q := by
    obtain ⟨l, hperm, hlist⟩ := hsub q
    have hwhole : (new q ++ inbox posts w q).Nodup :=
      List.nodup_append.mpr ⟨hnodup q, h.distinct q, fun e he e' he' heq =>
        hfresh q e he (heq ▸ he')⟩
    exact hperm.nodup_iff.mp (hwhole.sublist hlist)
  told q e he := by
    rcases List.mem_append.mp ((hsub q).subset he) with he | he
    · exact htold q e he
    · obtain ⟨i, operation, hi, hlisted, hvalue⟩ := h.told q e he
      exact ⟨i, operation, Nat.lt_of_lt_of_le hi (hstarted e.2), hlisted, hvalue⟩

theorem less (h : Once c posts w) (hstarted : ∀ v, started w v ≤ started w' v)
    (hsub : ∀ q, (inbox posts' w' q).Subperm (inbox posts w q)) : Once c posts' w' :=
  h.add (fun _ => []) hstarted hsub (fun _ => List.nodup_nil) (fun _ => nofun) fun _ => nofun

theorem congr (h : Once c posts w) (hinstances : w'.instances = w.instances)
    (hresults : w'.results = w.results) : Once c posts w' := by
  refine h.less (fun v => Nat.le_of_eq (started_congr hresults v).symm) fun q => ?_
  rw [inbox, held_congr hinstances]
  exact .refl _

theorem fewer (h : Once c posts w) (hsub : posts'.Subperm posts) : Once c posts' w :=
  h.less (fun _ => Nat.le_refl _) fun q => (List.subperm_append_left _).mpr (mail_subperm hsub q)

theorem aside (held : List (Task String)) (h : Once c (held ++ deliveries w.pending.tasks) w)
    (haside : Aside w w') : Once c (held ++ deliveries w'.pending.tasks) w' :=
  (h.fewer ((List.subperm_append_left held).mpr haside.posts.subperm)).congr haside.instances
    haside.results

/-- Node `v` is taken away or put in place anew. -/
theorem lent {x : Option Peer} (h : Once c posts w)
    (hinstances : w'.instances = w.instances.set v.index x)
    (hx : ∀ y, x = some y → y = Peer.initial) (hresults : w'.results = w.results) :
    Once c posts w' :=
  h.less (fun u => Nat.le_of_eq (started_congr hresults u).symm) fun q =>
    ((held_sublist hinstances hx q).append_right _).subperm

theorem begun {a : Agenda} {i next : UInt64} {text : String} (h : Once c posts w) :
    Once c posts (w.begun v a i next text) := by
  refine h.less (fun u => ?_) fun q => .refl _
  have hresults : (w.begun v a i next text).results = w.results.modify v.index (· ++ [.missing]) := rfl
  unfold started
  rw [hresults, List.getElem?_modify]
  cases w.results[u.index]? with
  | none => exact Nat.le_refl _
  | some rs =>
    by_cases hu : v.index = u.index
    · simp [hu]
    · simp [hu]

theorem ended {i : UInt64} {result : Answer} (h : Once c posts w) (hends : Ends v result i w w') :
    Once c posts w' := by
  obtain ⟨a, rs, -, -, hrs, -, rfl⟩ := hends
  refine h.less (fun u => ?_) fun q => .refl _
  have hresults : (w.ended v a i rs result).results =
      w.results.set v.index (rs.set i.toNat result) := rfl
  by_cases hu : u.index = v.index
  · have hset : (w.ended v a i rs result).results[u.index]? = some (rs.set i.toNat result) := by
      rw [hresults, hu, List.getElem?_set_self (List.getElem?_eq_some_iff.mp hrs).1]
    rw [started_of_results (hu ▸ hrs), started_of_results hset, List.length_set]
  · unfold started
    rw [hresults, List.getElem?_set_ne fun heq => hu heq.symm]

theorem concluded {b : Bool} {result : Answer} (h : Once c (deliveries w.pending.tasks) w)
    (hconcludes : Concludes c v result w b w') : Once c (deliveries w'.pending.tasks) w' := by
  cases hconcludes with
  | idle idle => exact h
  | @ends i w₁ _ ends queued =>
    have hended : Once c (deliveries w₁.pending.tasks) w₁ := by
      rw [ends.frame.1]
      exact h.ended ends
    exact hended.aside [] (.queued queued)

/-- The value of the next operation is not on its way yet, and was not delivered. -/
theorem fresh (h : Once c posts w) (hdistinct : Distinct c) {i : Nat} {operation : Operation}
    (hlisted : (c.operations v)[i]? = some operation) (hstarted : started w v = i) (q : NodeId) :
    (value operation, v) ∉ inbox posts w q := by
  intro hmem
  obtain ⟨j, operation', hj, hlisted', hvalue⟩ := h.told q _ hmem
  have hi : ((c.operations v).map value)[i]? = some (value operation) := by
    rw [List.getElem?_map, hlisted, Option.map_some]
  have hj' : ((c.operations v).map value)[j]? = some (value operation) := by
    rw [List.getElem?_map, hlisted', Option.map_some, hvalue]
  have hsame : i = j := by
    have hlt := (List.getElem?_eq_some_iff.mp hi).1
    exact (List.getElem?_inj hlt (hdistinct v)).mp (hi.trans hj'.symm)
  have hlt : j < started w v := hj
  omega

/-- A node sends a message that no node has to several nodes. -/
theorem sent {message : String} {ds : List (Task String)} (h : Once c (deliveries w.pending.tasks) w)
    (howners : (ds.map Task.owner).Nodup) (hbodies : ∀ d ∈ ds, ∃ m, d.body = .receive v message m)
    (hfresh : ∀ q, (message, v) ∉ inbox (deliveries w.pending.tasks) w q)
    (htold : Told c w (message, v)) (hinstances : w'.instances = w.instances)
    (hresults : w'.results = w.results)
    (hsub : (deliveries w'.pending.tasks).Subperm (ds ++ deliveries w.pending.tasks)) :
    Once c (deliveries w'.pending.tasks) w' := by
  have hmail := mail_of_posted howners hbodies
  have hstarted := started_congr hresults
  refine h.add (fun q => mail q ds) (fun u => Nat.le_of_eq (hstarted u).symm) (fun q => ?_)
    (fun q => (hmail q).1) (fun q e he => (hmail q).2 e he ▸ hfresh q) fun q e he => ?_
  · have hposted := mail_subperm hsub q
    rw [mail_append] at hposted
    rw [inbox, held_congr hinstances]
    refine ((List.subperm_append_left (held w q)).mpr hposted).trans (List.Perm.subperm ?_)
    rw [inbox, ← List.append_assoc, ← List.append_assoc]
    exact List.perm_append_comm.append_right _
  · obtain ⟨i, operation, hi, hlisted⟩ := htold
    rw [(hmail q).2 e he]
    exact ⟨i, operation, by rw [hstarted]; exact hi, hlisted⟩

/-- A peer starts an operation: it sends the value to all others. -/
theorem operation (hc : Peers c) (hdistinct : Distinct c) (hsize : c.size < UInt32.size)
    {operation : Operation} {a : Agenda} {i next : UInt64} {rs : List Answer}
    (h : Once c (deliveries w.pending.tasks) w)
    (hlisted : (c.operations v)[i.toNat]? = some operation)
    (hrs : w.results[v.index]? = some rs) (hcount : rs.length = i.toNat)
    (hran : Step.answer c v operation (w.begun v a i next operation.text) = (.ok (), w')) :
    Once c (deliveries w'.pending.tasks) w' := by
  have hbegun : Once c (deliveries (w.begun v a i next operation.text).pending.tasks)
      (w.begun v a i next operation.text) := h.begun
  have hfresh : ∀ q, (value operation, v) ∉ inbox (deliveries w.pending.tasks) w q :=
    h.fresh hdistinct hlisted ((started_of_results hrs).trans hcount)
  have htold : Told c (w.begun v a i next operation.text) (value operation, v) := by
    refine ⟨i.toNat, operation, ?_, hlisted, rfl⟩
    rw [started_begun hrs]
    omega
  rcases Step.answer_ok hran with ⟨-, rfl⟩ | ⟨x, reply, w₁, hx, hperform, -, hvoid⟩
  · exact hbegun
  rw [hc.onOperation_eq] at hperform
  obtain ⟨rfl, hinstances, hresults, ds, howners, hbodies, hsub⟩ := Step.perform_sendAll_ok hperform
  obtain ⟨b, hconcludes⟩ := hvoid rfl
  have hback : w₁.instances.set v.index (some x) = w.instances := by
    rw [hinstances]
    exact congrArg World.instances (World.lend_back hx)
  have hnodup := (nodup_others hsize v).sublist howners
  refine concluded ?_ hconcludes
  exact hbegun.sent hnodup hbodies hfresh htold hback hresults hsub

/-- A message on its way to a node is delivered there. -/
theorem receive (hc : Peers c) {sender : NodeId} {message : String} {m : MessageId}
    (hbody : t.body = .receive sender message m)
    (h : Once c (t :: deliveries w.pending.tasks) w)
    (hran : Step.runHook c t.owner
      (fun site x => c.protocol.onMessage site message sender x) w = (.ok (), w')) :
    Once c (deliveries w'.pending.tasks) w' := by
  rcases Step.runHook_ok hran with ⟨-, rfl⟩ | ⟨x, reply, w₁, hx, hperform, hw'⟩
  · exact h.fewer (List.sublist_cons_self t _).subperm
  rw [hc.onMessage_eq] at hperform
  cases hperform
  obtain rfl := hw' rfl
  refine h.less (fun u => Nat.le_refl _) fun q => List.Perm.subperm (List.Perm.of_eq ?_)
  have hset : (w.instances.set t.owner.index none).set t.owner.index
      (some ⟨x.delivered ++ [(message, sender)]⟩) =
        w.instances.set t.owner.index (some ⟨x.delivered ++ [(message, sender)]⟩) := List.set_set _
  unfold inbox
  by_cases hq : q = t.owner
  · subst hq
    have hlt := (List.getElem?_eq_some_iff.mp hx).1
    have hmail : mail t.owner (t :: deliveries w.pending.tasks) =
        (message, sender) :: mail t.owner (deliveries w.pending.tasks) := by
      simp [mail, letter?, hbody]
    rw [held_of_present hx, hmail, held_of_present (x := ⟨x.delivered ++ [(message, sender)]⟩)
      (by rw [hset, List.getElem?_set_self hlt])]
    exact List.append_assoc _ _ _
  · have hmail : mail q (t :: deliveries w.pending.tasks) = mail q (deliveries w.pending.tasks) := by
      simp [mail, letter?, hbody, Ne.symm hq]
    rw [hmail, held_of_ne hset hq]

/-- Everything that a task does keeps values from being delivered twice. -/
theorem episode (hc : Peers c) (hdistinct : Distinct c) (hsize : c.size < UInt32.size)
    (h : Once c (deliveries (t :: w.pending.tasks)) w) (hepisode : Episode c t w w') :
    Once c (deliveries w'.pending.tasks) w' := by
  have hrest : Once c (deliveries w.pending.tasks) w :=
    h.fewer ((List.sublist_cons_self t _).filter _).subperm
  cases hepisode with
  | pass aside => exact hrest.aside [] aside
  | begin body listed woken agenda idle results count ran =>
    exact (hrest.aside [] woken).operation hc hdistinct hsize listed results count ran
  | receive body arrived ran =>
    rw [deliveries_cons (Task.kind_of_receive body)] at h
    exact (h.aside [t] arrived).receive hc body ran
  | @crash m d message fault w₁ w₂ _ body pending carries lost stops after =>
    have hstruck : Once c (deliveries (w.struck t.owner fault (Step.diesWith t.owner m)).pending.tasks)
        (w.struck t.owner fault (Step.diesWith t.owner m)) :=
      (hrest.fewer (List.filter_sublist.filter _).subperm).congr rfl rfl
    have hvacated : Once c (deliveries w₁.pending.tasks) (w₁.vacated t.owner) :=
      (hstruck.aside [] lost).lent (x := none) rfl nofun rfl
    have hstopped : Once c (deliveries w₂.pending.tasks) w₂ := by
      rcases stops with rfl | ⟨i, ends⟩
      · exact hvacated
      · rw [ends.frame.1]
        exact hvacated.ended ends
    exact hstopped.aside [] after
  | @recover fault a _ body vacant agenda after =>
    have hrevived : Once c (deliveries (w.revived c t.owner fault a).pending.tasks)
        (w.revived c t.owner fault a) := hrest.lent rfl (fun y hy => hc.eq_initial hy) rfl
    exact hrevived.aside [] after

theorem reset (hc : Peers c) (w : World Peer String) :
    Once c (deliveries (w.reset c).pending.tasks) (w.reset c) := by
  have hnone : ∀ q, inbox (deliveries (w.reset c).pending.tasks) (w.reset c) q = [] := by
    intro q
    have hposts : deliveries (w.reset c).pending.tasks = [] := by
      refine deliveries_eq_nil fun t ht => ?_
      obtain ⟨i, -, rfl⟩ := List.mem_map.mp ht
      exact TaskKind.noConfusion
    have hheld : held (w.reset c) q = [] := by
      have hinstances : (w.reset c).instances = (List.range c.size).map fun i =>
        c.registry.spawn? (NodeId.ofIndex i) (w.made.getD i 0) := rfl
      unfold held
      cases hx : (w.reset c).instances[q.index]?.join with
      | none => rfl
      | some x =>
        rw [hinstances, List.getElem?_map] at hx
        obtain ⟨i, -, hspawn⟩ := Option.map_eq_some_iff.mp (Option.join_eq_some_iff.mp hx)
        rw [hc.eq_initial hspawn]
        rfl
    rw [inbox, hheld, hposts]
    rfl
  refine ⟨fun q => ?_, fun q e he => ?_⟩
  · rw [hnone]
    exact List.nodup_nil
  · rw [hnone] at he
    cases he

end Once

theorem reaches_once {c : Cluster Peer String} {w : World Peer String} (hc : Peers c)
    (hdistinct : Distinct c) (hsize : c.size < UInt32.size) (hw : Reaches c (fun _ => False) w) :
    Once c (deliveries w.pending.tasks) w :=
  hw.episodes hc.placid hsize (Once.reset hc)
    (fun hperm h => (h.fewer (hperm.filter _).symm.subperm).congr rfl rfl)
    (fun hepisode h => h.episode hc hdistinct hsize hepisode) fun haside h => h.aside [] haside

/-! ### What peers check and what they count -/

theorem repeated?_eq_none_iff {earlier l : List (String × NodeId)} :
    Peer.repeated? earlier l = none ↔ l.Nodup ∧ ∀ e ∈ l, e ∉ earlier := by
  induction l generalizing earlier with
  | nil => simp [Peer.repeated?]
  | cons e l ih =>
    unfold Peer.repeated?
    by_cases he : e ∈ earlier
    · simp [he]
    · have hnot : ¬ earlier.contains e = true := by simpa using he
      rw [if_neg hnot, ih, List.nodup_cons]
      simp only [List.mem_append, List.mem_singleton, not_or, List.forall_mem_cons]
      constructor
      · rintro ⟨hnodup, hall⟩
        exact ⟨⟨fun hmem => (hall e hmem).2 rfl, hnodup⟩, he, fun x hx => (hall x hx).1⟩
      · rintro ⟨⟨hfresh, hnodup⟩, -, hall⟩
        exact ⟨hnodup, fun x hx => ⟨hall x hx, fun heq => hfresh (heq ▸ hx)⟩⟩

theorem invalidFrom_eq_none {c : Cluster Peer String} {l : List (Option Peer)}
    (h : ∀ x, some x ∈ l → c.protocol.invalid? x = none) (i : Nat) :
    World.invalidFrom c i l = none := by
  induction l generalizing i with
  | nil => rfl
  | cons y l ih =>
    have hfirst : y.bind c.protocol.invalid? = none := by
      cases y with
      | none => rfl
      | some x => exact h x List.mem_cons_self
    rw [World.invalidFrom, hfirst]
    exact ih (fun x hx => h x (List.mem_cons_of_mem y hx)) (i + 1)

/-- An operation sends no more messages than there are nodes, and nothing else sends any. -/
theorem keeps {c : Cluster Peer String} {K : Contract Peer String} (hc : Peers c) (hK : K.Bare) :
    c.Keeps K (12 * c.size) where
  spawn _ := hK.proper _ _
  onStart {v x} hx := by
    rw [(hc.placid v x).1]
    exact ⟨hx, (), rfl⟩
  onOperation {v x operation} hx _ := by
    have hothers : (c.site v).others.length ≤ c.size := by
      refine Nat.le_trans (List.length_filter_le _ _) ?_
      rw [List.length_map, List.length_range]
      exact Nat.le_refl _
    rw [hc.onOperation_eq]
    refine hK.bounded_sendAll (Q := K.Settled v) ⟨hx, .void, rfl⟩ ?_
    omega
  onMessage {v x message sender} hx := by
    rw [hc.onMessage_eq]
    exact ⟨hK.proper _ _, (), rfl⟩
  onRecovery {v x} hx := by
    rw [(hc.placid v x).2.1]
    exact ⟨hx, (), rfl⟩
  onFinish {v x} hx := by
    rw [(hc.placid v x).2.2]
    exact ⟨hx, (), rfl⟩

/-- Every live node accepts its state, and no pending task fails. A counter could run out only if the
scenario and the log took more than all of memory. -/
structure Flawless (c : Cluster Peer String) (w : World Peer String) : Prop where
  valid : ∀ (v : NodeId) x, w.instances[v.index]? = some (some x) → c.protocol.invalid? x = none
  accepted : w.invalid? c = none
  executed : ∀ t ∈ w.pending.tasks, (∃ w', Step.advance c t.id w = (.ok t, w')) ∨
    (memory < c.scenario.bytes + w.bytes ∧
      ∃ w', Step.advance c t.id w = (.error (.panic .overflow), w'))

theorem reaches_flawless {c : Cluster Peer String} {w : World Peer String} (hc : Peers c)
    (hdistinct : Distinct c) (haccept : c.toSetup.accept = .ok ())
    (hw : Reaches c (fun _ => False) w) : Flawless c w := by
  have hsize : c.size < UInt32.size := Setup.size_lt_of_accept haccept
  have honce := reaches_once hc hdistinct hsize hw
  have hvalid : ∀ (v : NodeId) x, w.instances[v.index]? = some (some x) →
      c.protocol.invalid? x = none := by
    intro v x hx
    have hinbox := honce.distinct v
    rw [inbox, held_of_present hx] at hinbox
    have hnodup : x.delivered.Nodup := (List.nodup_append.mp hinbox).1
    rw [hc.protocol]
    exact Option.map_eq_none_iff.mpr (repeated?_eq_none_iff.mpr ⟨hnodup, nofun⟩)
  refine ⟨hvalid, invalidFrom_eq_none (fun x hx => ?_) 0, fun t ht => ?_⟩
  · obtain ⟨i, hi⟩ := List.mem_iff_getElem?.mp hx
    have hlt : i < UInt32.size := by
      have hsized := ((hw.mono fun _ => False.elim).booked_of_clean hsize).2.sized.instances
      have hlength := (List.getElem?_eq_some_iff.mp hi).1
      omega
    exact hvalid (.ofIndex i) x (by rwa [NodeId.index_ofIndex hlt])
  · refine (hw.advance_ok_or_overflow_of_keeps (fun K hK => keeps hc hK) hsize ht).imp_right ?_
    rintro ⟨hcap, hfails⟩
    refine ⟨?_, hfails⟩
    unfold memory Scenario.bytes World.bytes
    rw [UInt32.size] at hsize
    rw [UInt64.size] at hcap ⊢
    omega

/-! ### The workload -/

theorem peers_simulation (s : Simulation) : Peers s.broadcastCluster where
  protocol := rfl
  initial g hg v n := by
    obtain rfl := List.mem_singleton.mp hg
    rfl

/-- A number is read off its digits. -/
theorem numbered_inj {i j : Nat} (h : s!"v{i}" = s!"v{j}") : i = j := by
  have hlist := congrArg String.toList h
  simp only [toString, String.toList_append] at hlist
  have hdigits := congrArg (fun l => Nat.ofDigitChars 10 l 0) (List.append_cancel_left hlist)
  simpa using hdigits

theorem distinct_simulation {s : Simulation} (hbroadcast : s.workload = .broadcast) :
    Distinct s.broadcastCluster := by
  intro v
  have hoperations : s.broadcastCluster.operations v =
      ((List.range (Workload.broadcast.scenarioNodes s.nodes s.operations)).map
        (Workload.broadcast.operationsOf s.operations)).getD v.index [] := by
    show (s.workload.scenario s.nodes s.operations).of v = _
    rw [hbroadcast]
    rfl
  rw [hoperations, List.getD_eq_getElem?_getD, List.getElem?_map]
  cases (List.range (Workload.broadcast.scenarioNodes s.nodes s.operations))[v.index]? with
  | none => exact List.nodup_nil
  | some node =>
    rw [Option.map_some, Option.getD_some, Workload.operationsOf]
    split
    · rw [List.map_map]
      exact List.Nodup.map_on (fun i _ j _ heq => numbered_inj heq) List.nodup_range
    · exact List.nodup_nil

/-- **Broadcast never delivers twice**, in any cluster of peers in which no node broadcasts the same
value twice, and so in the workload of any number of nodes and operations. In all states reached from
the start by pending tasks in any order, under all settings and after any number of crashes and
recoveries, every live node accepts its state and no pending task fails. -/
theorem never_delivers_twice :
    (∀ {c : Cluster Peer String} {w : World Peer String}, Peers c → Distinct c →
      c.toSetup.accept = .ok () → Reaches c (fun _ => False) w → Flawless c w) ∧
    ∀ {s : Simulation} {w : World Peer String}, s.workload = .broadcast →
      s.broadcastCluster.toSetup.accept = .ok () → Reaches s.broadcastCluster (fun _ => False) w →
        Flawless s.broadcastCluster w :=
  ⟨reaches_flawless, fun hbroadcast => reaches_flawless (peers_simulation _)
    (distinct_simulation hbroadcast)⟩

/-- Two peers with two values each, of which one may crash and come back. -/
def rounds : Cluster Peer String :=
  { fragile with scenario := ⟨[[.named "send" ["a"], .named "send" ["b"]],
      [.named "send" ["a"], .named "send" ["c"]]]⟩ }

/-- Three peers, the first of which broadcasts two values and may crash. -/
def relay : Simulation := ⟨.broadcast, 3, 2, { Config.default with maxFailed := 1, recovery := .all }⟩

/-- A peer was given a value, crashed and came back, and was given the next one; it can crash again. And
the first peer of a workload crashed at its last message, and the second one was given both values. -/
theorem never_delivers_twice_rounds :
    let w := (Step.advances rounds [⟨0⟩, ⟨1⟩, ⟨2⟩, ⟨6⟩, ⟨8⟩, ⟨9⟩, ⟨4⟩, ⟨12⟩]
      ((World.new rounds).reset rounds)).2
    let u := (Step.advances relay.broadcastCluster [⟨0⟩, ⟨3⟩, ⟨7⟩, ⟨11⟩, ⟨8⟩]
      ((World.new relay.broadcastCluster).reset relay.broadcastCluster)).2
    w.instances = [some ⟨[]⟩, some ⟨[("b", ⟨0⟩)]⟩] ∧
      (∃ t ∈ w.pending.tasks, t.kind = .crash ∧ ∃ w', Step.advance rounds t.id w = (.ok t, w')) ∧
      u.instances = [none, some ⟨[("v0", ⟨0⟩), ("v1", ⟨0⟩)]⟩, some ⟨[]⟩] ∧
      u.invalid? relay.broadcastCluster = none := by
  intro w u
  have hpeers : Peers rounds := ⟨rfl, fun g hg v n => by obtain rfl := List.mem_singleton.mp hg; rfl⟩
  have hdistinct : Distinct rounds := by
    intro v
    show ((rounds.scenario.operations.getD v.index []).map value).Nodup
    match v.index with
    | 0 => decide
    | 1 => decide
    | _ + 2 => exact List.nodup_nil
  have hw : Reaches rounds (fun _ => False) w :=
    (Reaches.start (World.new rounds)).advances (by decide +kernel)
  have hu : Reaches relay.broadcastCluster (fun _ => False) u :=
    (Reaches.start (World.new relay.broadcastCluster)).advances (by decide +kernel)
  have hrounds := never_delivers_twice.1 hpeers hdistinct (by decide +kernel) hw
  have hrelay := never_delivers_twice.2 rfl (by decide +kernel) hu
  have hcrash : ∃ t ∈ w.pending.tasks, t.kind = .crash := by decide +kernel
  obtain ⟨t, ht, hkind⟩ := hcrash
  refine ⟨by decide +kernel, ⟨t, ht, hkind, ?_⟩, by decide +kernel, hrelay.accepted⟩
  have hfits : ¬ memory < rounds.scenario.bytes + w.bytes := by decide +kernel
  exact (hrounds.executed t ht).resolve_right fun hfails => hfits hfails.1

end Broadcast

end Interleave
