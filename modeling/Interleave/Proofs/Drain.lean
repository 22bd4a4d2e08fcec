/-
# Draining

Three times the tasks left over are executed by ascending number: when nothing is
eligible, after a path was replayed, and when the nodes were told that the scenario
is over. The pending task with the lowest number is never a fault, since the
delivery that a fault is pinned to stands before it. So a drain injects no fault,
from whatever state it starts, and an iteration that does nothing but drain is one
in which no node crashes, the network stays whole and no message is lost
(`Explorer.drain_peaceful`).

How exploring iterations drain is said by `Iteration.Conduct`. For a replay the
same is done here (`Iteration.retraces_replay`): it executes its path, whatever that
is, then drains, tells the nodes and drains again, and it may be cut short anywhere.
-/
import Interleave.Proofs.Canonical
import Interleave.Proofs.Links

namespace Interleave

variable {F σ μ : Type} {c : Cluster σ μ}

/-! ### Replays -/

/-- How the replay of a path from state `w` went: along the path, then with the tasks swept up, and
if they came to their end, the nodes were told and what that brought about was swept up. -/
inductive Iteration.Retraces (c : Cluster σ μ) (sweep : Rule) (path : List TaskId) (w : World σ μ)
    (it : Iteration) : Prop
  /-- Cut short on the path. -/
  | astray {ts : List (Task μ)} {w' : World σ μ} (tasks : Tries c .any none w ts w')
      (short : ts.length < path.length) (executed : it.executed = ts.map Task.id)
      (afterwards : it.afterwards = []) (trace : it.trace = w'.events ∨ it.trace = [])
  /-- Cut short among the tasks that are swept up. -/
  | broken {ts us : List (Task μ)} {w₁ w' : World σ μ} (tasks : Schedule c .any none w ts w₁)
      (followed : ts.map Task.id = path) (swept : Tries c sweep none w₁ us w')
      (executed : it.executed = path ++ us.map Task.id) (afterwards : it.afterwards = [])
      (trace : it.trace = w'.events ∨ it.trace = [])
  | told {ts us : List (Task μ)} {e : Abort} {w₁ w₂ w' : World σ μ}
      (tasks : Schedule c .any none w ts w₁) (followed : ts.map Task.id = path)
      (swept : Schedule c sweep none w₁ us w₂)
      (told : Walker.tellAll c ((List.range w₂.size).map NodeId.ofIndex) w₂ = (some e, w'))
      (executed : it.executed = path ++ us.map Task.id) (afterwards : it.afterwards = [])
      (trace : it.trace = w'.events ∨ it.trace = [])
  | ended {ts us vs : List (Task μ)} {w₁ w₂ w₃ w' : World σ μ}
      (tasks : Schedule c .any none w ts w₁) (followed : ts.map Task.id = path)
      (swept : Schedule c sweep none w₁ us w₂)
      (told : Walker.tellAll c ((List.range w₂.size).map NodeId.ofIndex) w₂ = (none, w₃))
      (last : Tries c sweep none w₃ vs w')
      (executed : it.executed = path ++ us.map Task.id) (afterwards : it.afterwards = vs.map Task.id)
      (trace : it.trace = w'.events ∨ it.trace = [])

namespace Walker

open Attempt

/-- A task that cannot be executed is not pending, or fails, or the time is up. -/
theorem tries_of_execute_error {id : TaskId} {e : Abort} {k k' : Walk F σ μ}
    (finished : Option TaskView) (h : execute c id k = (.error e, k')) :
    k'.executed = k.executed ∧ Tries c .any finished k.world [] k'.world := by
  cases hget : k.world.pending.get? id with
  | none =>
    have htake : k.world.pending.take id = none := by simp [Pending.take, hget]
    rw [execute_apply, htake] at h
    split at h
    · cases h
      exact ⟨rfl, .inl (.nil _ _)⟩
    · cases h
      exact ⟨rfl, .inl (.nil _ _)⟩
  | some t =>
    rcases execute_error_cases hget h with ⟨-, rfl, -⟩ | ⟨-, w, hrun, rfl⟩
    · exact ⟨rfl, .inl (.nil _ _)⟩
    · refine ⟨by simp [Walk.broken, Walk.moved], .inr ⟨t, e, .nil ?_⟩⟩
      exact .of_get? hget hrun fun _ => trivial

/-- However the tasks of a path go, those executed are the first ones of the path, and all of them
unless it is cut short. -/
theorem forM_execute_cases : ∀ {path : List TaskId} (finished : Option TaskView)
    {r : Except Abort PUnit} {k k' : Walk F σ μ},
    (path.forM fun id => (do let _ ← execute c id : Walker F σ μ Unit)) k = (r, k') →
      ∃ ts, k'.executed = k.executed ++ ts.map Task.id ∧
        ((r = .ok ⟨⟩ ∧ ts.map Task.id = path ∧ Schedule c .any finished k.world ts k'.world) ∨
          ∃ e, r = .error e ∧ ts.length < path.length ∧ Tries c .any finished k.world ts k'.world)
  | [], finished, r, k, k', h => by
    cases h
    exact ⟨[], by simp, .inl ⟨rfl, rfl, .nil _ _⟩⟩
  | id :: path, finished, r, k, k', h => by
    rcases bind_cases h with ⟨e, hfirst, rfl⟩ | ⟨u, k₁, hfirst, hrest⟩
    · rcases bind_cases hfirst with ⟨e', hexecute, he⟩ | ⟨v, k₂, -, hdone⟩
      · cases he
        obtain ⟨hsame, htries⟩ := tries_of_execute_error finished hexecute
        exact ⟨[], by simp [hsame], .inr ⟨e, rfl, by simp, htries⟩⟩
      · cases hdone
    · obtain ⟨v, k₂, hexecute, hdone⟩ := bind_ok hfirst
      cases hdone
      obtain ⟨-, t, w, hadvance, -, rfl⟩ := execute_ok_iff.mp hexecute
      obtain rfl := Step.id_of_advance hadvance
      obtain ⟨ts, hexecuted, hcases⟩ := forM_execute_cases (some t.view) hrest
      refine ⟨t :: ts, by simp [hexecuted, Walk.moved], ?_⟩
      rcases hcases with ⟨hr, hids, hschedule⟩ | ⟨e, hr, hshort, htries⟩
      · exact .inl ⟨hr, by simp [hids], .cons trivial hadvance hschedule⟩
      · exact .inr ⟨e, hr, by simpa using hshort, htries.cons trivial hadvance⟩

/-- However a replay goes before the nodes are told, its tasks are those of the path, or the first
ones of it, and after the whole path those with the lowest numbers. -/
theorem replay_cases {path : List TaskId} {r : Except Abort Bool} {k k' : Walk F σ μ}
    (h : replay c path k = (r, k')) :
    (∃ e ts, r = .error e ∧ ts.length < path.length ∧ Tries c .any none k.world ts k'.world ∧
        k'.executed = k.executed ++ ts.map Task.id) ∨
      ∃ ts us w, ts.map Task.id = path ∧ Schedule c .any none k.world ts w ∧
        k'.executed = k.executed ++ (path ++ us.map Task.id) ∧
        ((r = .ok false ∧ Schedule c .lowest none w us k'.world) ∨
          ∃ e, r = .error e ∧ Tries c .lowest none w us k'.world) := by
  rcases bind_cases h with ⟨e, hpath, rfl⟩ | ⟨u, k₁, hpath, hrest⟩
  · obtain ⟨ts, hexecuted, hcases⟩ := forM_execute_cases none hpath
    rcases hcases with ⟨hr, -⟩ | ⟨e', -, hshort, htries⟩
    · cases hr
    · exact .inl ⟨e, ts, rfl, hshort, htries, hexecuted⟩
  · obtain ⟨ts, hexecuted, hcases⟩ := forM_execute_cases none hpath
    rcases hcases with ⟨-, hids, hschedule⟩ | ⟨e, hr, -⟩
    · rcases bind_cases hrest with ⟨e, hdrain, rfl⟩ | ⟨u, k₂, hdrain, hdone⟩
      · obtain ⟨us, hmore, -, htries⟩ := drain_cases hdrain
        have hall : k'.executed = k.executed ++ (path ++ us.map Task.id) := by
          simp [hmore, hexecuted, hids]
        refine .inr ⟨ts, us, k₁.world, hids, hschedule, hall, .inr ⟨e, rfl, ?_⟩⟩
        rcases htries with ⟨hr, -⟩ | ⟨-, -, htries⟩
        · cases hr
        · exact htries
      · cases hdone
        obtain ⟨us, hmore, -, htries⟩ := drain_cases hdrain
        have hall : k'.executed = k.executed ++ (path ++ us.map Task.id) := by
          simp [hmore, hexecuted, hids]
        refine .inr ⟨ts, us, k₁.world, hids, hschedule, hall, .inl ⟨rfl, ?_⟩⟩
        rcases htries with ⟨-, hdrained, -⟩ | ⟨e, hr, -⟩
        · exact hdrained
        · cases hr
    · cases hr

end Walker

namespace Iteration

variable [Share F]

/-- **How a replay goes**, along any path: after the path tasks are taken by ascending number. -/
theorem retraces_replay (c : Cluster σ μ) (verifier : Verifier) (path : List TaskId) (tree : Tree F)
    (w : World σ μ) : (replay c verifier path tree w).1.Retraces c .lowest path (w.reset c) := by
  unfold replay walk
  rcases htasks : Walker.replay c path (start c tree w) with ⟨e | b, mid⟩
  · obtain ⟨hexecuted, hafter, htrace⟩ := close_record c verifier false (.error e) mid mid
    have hnone : mid.executed.drop mid.executed.length = [] := List.drop_length
    rcases Walker.replay_cases htasks with ⟨-, ts, -, hshort, htries, hids⟩ |
      ⟨ts, us, w₁, hpath, hschedule, hids, ⟨hr, -⟩ | ⟨-, -, htries⟩⟩
    · exact .astray htries hshort (hexecuted.trans hids) (hafter.trans hnone) htrace
    · cases hr
    · exact .broken hschedule hpath htries (hexecuted.trans hids) (hafter.trans hnone) htrace
  rcases Walker.replay_cases htasks with ⟨e, ts, hr, -⟩ |
    ⟨ts, us, w₁, hpath, hschedule, hids, ⟨-, hswept⟩ | ⟨e, hr, -⟩⟩
  · cases hr
  · dsimp only
    rcases hend : Walker.endScenario c mid with ⟨r, last⟩
    obtain ⟨-, hcases⟩ := Walker.endScenario_cases hend
    -- However the end went, the record is made from the states before and after it.
    have hrecord : ∀ r', (close c verifier false (r', mid, last)).1.Retraces c .lowest path
        (w.reset c) := by
      intro r'
      obtain ⟨hexecuted, hafter, htrace⟩ := close_record c verifier false r' mid last
      rcases hcases with ⟨e, htell, hsame⟩ | ⟨vs, w₃, htell, htries, hmore⟩
      · exact .told hschedule hpath hswept htell (hexecuted.trans hids)
          (hafter.trans (by rw [hsame, List.drop_length])) htrace
      · exact .ended hschedule hpath hswept htell htries (hexecuted.trans hids)
          (hafter.trans (by rw [hmore, List.drop_left])) htrace
    cases r with
    | error e => exact hrecord _
    | ok u => exact hrecord _
  · cases hr

/-- The events left in the state are those of the record. -/
theorem events_close (c : Cluster σ μ) (verifier : Verifier) (exploring : Bool)
    (walked : Except Abort Bool × Walk F σ μ × Walk F σ μ) :
    (close c verifier exploring walked).2.2.events = (close c verifier exploring walked).1.trace := by
  obtain ⟨r, mid, last⟩ := walked
  cases r with
  | ok b => rfl
  | error e => cases e <;> rfl

namespace Retraces

variable {sweep sweep' : Rule} {path : List TaskId} {w : World σ μ} {it : Iteration}
  {I : World σ μ → Prop}

omit [Share F] in
/-- The rule of the drains can be replaced by one that holds in the states they come through. -/
theorem strengthen (hpath : Upgrades c I .any .any) (hsweep : Upgrades c I sweep sweep')
    (htell : ∀ {v w w'}, I w → Step.farewell c v w = (.ok (), w') → I w')
    (h : it.Retraces c sweep path w) (hw : I w) : it.Retraces c sweep' path w := by
  cases h with
  | astray tasks short executed afterwards trace =>
    exact .astray tasks short executed afterwards trace
  | broken tasks followed swept executed afterwards trace =>
    obtain ⟨-, hw₁⟩ := tasks.strengthen hpath hw
    exact .broken tasks followed (swept.strengthen hsweep hw₁) executed afterwards trace
  | told tasks followed swept told executed afterwards trace =>
    obtain ⟨-, hw₁⟩ := tasks.strengthen hpath hw
    exact .told tasks followed (swept.strengthen hsweep hw₁).1 told executed afterwards trace
  | ended tasks followed swept told last executed afterwards trace =>
    obtain ⟨-, hw₁⟩ := tasks.strengthen hpath hw
    obtain ⟨hswept, hw₂⟩ := swept.strengthen hsweep hw₁
    have hw₃ := Walker.keeps_of_tellAll htell told hw₂
    exact .ended tasks followed hswept told (last.strengthen hsweep hw₃) executed afterwards trace

omit [Share F] in
/-- A replay of nothing that injects no fault records none, and no message is lost in it, however it
ends. -/
theorem unharmed (h : it.Retraces c sweep.peaceful [] w) (hw : Unharmed c w) :
    ∀ o ∈ it.trace, o.event.isFault = false := by
  have htrace : ∀ {w' : World σ μ}, Unharmed c w' → it.trace = w'.events ∨ it.trace = [] →
      ∀ o ∈ it.trace, o.event.isFault = false := by
    rintro w' hw' (htrace | htrace)
    · rw [htrace]
      exact hw'.events
    · rw [htrace]
      exact nofun
  have hstay : ∀ {ts : List (Task μ)} {w₁ : World σ μ}, ts.map Task.id = [] →
      Schedule c .any none w ts w₁ → Unharmed c w₁ := by
    intro ts w₁ hids hschedule
    cases List.map_eq_nil_iff.mp hids
    cases hschedule
    exact hw
  cases h with
  | astray tasks short executed afterwards trace => exact absurd short (Nat.not_lt_zero _)
  | broken tasks followed swept executed afterwards trace =>
    exact htrace (swept.unharmed (hstay followed tasks)) trace
  | told tasks followed swept told executed afterwards trace =>
    exact htrace ((swept.unharmed (hstay followed tasks)).tellAll told) trace
  | ended tasks followed swept told last executed afterwards trace =>
    exact htrace (last.unharmed ((swept.unharmed (hstay followed tasks)).tellAll told)) trace

end Retraces

end Iteration

/-! ### Drains -/

namespace Explorer

variable [Share F] {verifier : Verifier}

/-- **Draining never injects a fault.** From whatever reached state a drain starts, it executes tasks
by ascending number, none of which is a fault, and neither is the one that it may fail at. So it is
in all iterations of a run and in the replay of any path, each time that tasks are swept up. The
replay of nothing records no fault, and loses no message. -/
theorem drain_peaceful {x : Explorer F σ μ} (hx : Reachable c verifier x) :
    (∀ {r : Except Abort Unit} {k k' : Walk F σ μ}, Reaches c Abort.Clean k.world →
        Walker.drain c k = (r, k') → ∃ ts, k'.executed = k.executed ++ ts.map Task.id ∧
          Tries c (.peaceful .lowest) none k.world ts k'.world) ∧
      (∀ it ∈ x.run.1.history, ∃ w : World σ μ,
        it.Conduct c (.eligible c.config.order) (.peaceful .lowest) (w.reset c)) ∧
      (∀ path, (Iteration.replay c verifier path x.tree x.world).1.Retraces c (.peaceful .lowest)
        path (x.world.reset c)) ∧
      ∀ o ∈ (x.replay []).2.lastTrace, o.event.isFault = false := by
  have hsize : c.size < UInt32.size := Setup.size_lt_of_accept hx.accept
  have hretraces : ∀ path, (Iteration.replay c verifier path x.tree x.world).1.Retraces c
      (.peaceful .lowest) path (x.world.reset c) := fun path =>
    (Iteration.retraces_replay c verifier path x.tree x.world).strengthen (upgrades_self _)
      (upgrades_peaceful hsize) (fun hw hrun => hw.farewell _ hrun nofun) (.start _)
  refine ⟨fun {r k k'} hw hdrain => ?_, fun it hit => ?_, hretraces, ?_⟩
  · obtain ⟨ts, hexecuted, -, hcases⟩ := Walker.drain_cases hdrain
    have htries : Tries c .lowest none k.world ts k'.world := by
      rcases hcases with ⟨-, hschedule, -⟩ | ⟨e, -, htries⟩
      · exact .inl hschedule
      · exact htries
    exact ⟨ts, hexecuted, htries.strengthen (upgrades_peaceful_of_clean hsize) hw⟩
  · obtain ⟨w, hconduct⟩ := hx.conduct hit
    exact ⟨w, hconduct.strengthen (upgrades_self _) (upgrades_peaceful hsize)
      (fun hw hrun => hw.farewell _ hrun nofun) (.start _)⟩
  · have hlast : (x.replay []).2.lastTrace =
        (Iteration.replay c verifier [] x.tree x.world).1.trace := by
      obtain ⟨rfl, rfl, -⟩ := hx.of
      rw [Explorer.replay_eq]
      exact Iteration.events_close _ _ _ _
    rw [hlast]
    exact (hretraces []).unharmed (.reset hsize _)

/-- Node 2 has written to the other nodes, at which it may crash. What is left is drained without a
crash, and so is everything if nothing is replayed. -/
theorem drain_peaceful_crossing :
    let x : Explorer Float Script.Actor String := fresh Script.crossing .acceptAll
    let w := (Step.advances Script.crossing [⟨2⟩] ((World.new Script.crossing).reset Script.crossing)).2
    w.pending.tasks.map (fun t => (t.id, t.kind)) = [(⟨0⟩, .operation), (⟨1⟩, .operation),
        (⟨3⟩, .receive), (⟨4⟩, .crash), (⟨5⟩, .receive), (⟨6⟩, .crash)] ∧
      (∃ ts w', (Walker.drain Script.crossing (⟨w, x.tree, [⟨2⟩], [], 100⟩ : Walk Float _ _)).2.executed =
          ⟨2⟩ :: ts.map Task.id ∧ 4 ≤ ts.length ∧
        Tries Script.crossing (.peaceful .lowest) none w ts w') ∧
      (x.replay []).2.lastTrace ≠ [] ∧
      ∀ o ∈ (x.replay []).2.lastTrace, o.event.isFault = false := by
  intro x w
  have hx : Reachable Script.crossing .acceptAll x := .new (new_eq_fresh rfl)
  have hw : Reaches Script.crossing Abort.Clean w :=
    (Reaches.start (World.new Script.crossing)).advances (by decide +kernel)
  have hpending : w.pending.tasks.map (fun t => (t.id, t.kind)) = [(⟨0⟩, .operation), (⟨1⟩, .operation),
      (⟨3⟩, .receive), (⟨4⟩, .crash), (⟨5⟩, .receive), (⟨6⟩, .crash)] := by decide +kernel
  have hmany : 5 ≤ (Walker.drain Script.crossing
      (⟨w, x.tree, [⟨2⟩], [], 100⟩ : Walk Float _ _)).2.executed.length := by decide +kernel
  have htold : (x.replay []).2.lastTrace ≠ [] := by decide +kernel
  -- From here on nothing is computed.
  clear_value w x
  have hpeaceful := drain_peaceful hx
  rcases hrun : Walker.drain Script.crossing (⟨w, x.tree, [⟨2⟩], [], 100⟩ : Walk Float _ _) with ⟨r, k'⟩
  obtain ⟨ts, hexecuted, htries⟩ := hpeaceful.1 (k := ⟨w, x.tree, [⟨2⟩], [], 100⟩) hw hrun
  rw [hrun, hexecuted] at hmany
  exact ⟨hpending, ⟨ts, k'.world, hexecuted, by simpa using hmany, htries⟩, htold, hpeaceful.2.2.2⟩

end Explorer

end Interleave
