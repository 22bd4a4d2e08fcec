/-
# How iterations of placid clusters end

Where nodes have nothing to do when the scenario is over, telling them so adds an
event each and brings nothing about (`Walker.tellAll_of_placid`). So an exploring
iteration ends in one of three ways: all tasks were executed and the results are
judged, the time was up with tasks still pending, or a task failed
(`Explorer.Reachable.closing`).
-/
import Interleave.Proofs.Conduct
import Interleave.Proofs.Episode

namespace Interleave

variable {F σ μ : Type} {c : Cluster σ μ}

/-! ### Telling the nodes -/

/-- A node that does nothing at the end is told, if it is there. -/
theorem Step.farewell_of_idle {v : NodeId}
    (hf : ∀ x, c.protocol.onFinish (c.site v) x = .done (x, .ok ())) (w : World σ μ) :
    ∃ events, Step.farewell c v w = (.ok (), { w with events := events }) := by
  unfold farewell onInstance
  rw [bind_assoc, Attempt.get_bind]
  cases hstate : w.instances[v.index]?.join with
  | none => exact ⟨w.events, rfl⟩
  | some x =>
    have hx : w.instances[v.index]? = some (some x) := Option.join_eq_some_iff.mp hstate
    refine ⟨w.events ++ [⟨v, .closed⟩], ?_⟩
    simp only [hf, setInstance, Attempt.modify_bind, bind_assoc]
    show (Except.ok (), World.recorded { w with
      instances := (w.instances.set v.index none).set v.index (some x) } v .closed) = _
    rw [World.lend_back hx]
    rfl

/-- Telling the nodes of a placid cluster only adds events. -/
theorem Walker.tellAll_of_placid (hc : c.Placid) : ∀ (l : List NodeId) (w : World σ μ),
    ∃ events, tellAll c l w = (none, { w with events := events })
  | [], w => ⟨w.events, rfl⟩
  | v :: l, w => by
    obtain ⟨events, hfarewell⟩ := Step.farewell_of_idle (fun x => (hc v x).2.2) w
    obtain ⟨events', hrest⟩ := tellAll_of_placid hc l { w with events := events }
    refine ⟨events', ?_⟩
    unfold tellAll
    rw [hfarewell]
    exact hrest

/-- With nothing pending, the end of the scenario of a placid cluster brings nothing about. -/
theorem Walker.endScenario_of_placid (hc : c.Placid) {k : Walk F σ μ}
    (hempty : k.world.pending.isEmpty = true) :
    ∃ events, endScenario c k = (.ok (), { k with world := { k.world with events := events } }) := by
  obtain ⟨events, htold⟩ :=
    tellAll_of_placid hc ((List.range k.world.size).map NodeId.ofIndex) k.world
  refine ⟨events, endScenario_ok_iff.mpr ⟨[], { k.world with events := events },
    ⟨_, htold, Drains.nil_iff.mpr ⟨rfl, hempty⟩⟩, Nat.zero_le _, by simp [Walk.moved]⟩⟩

/-! ### Iterations -/

/-- How an iteration comes to its end after tasks `ts` that led to state `w`. -/
inductive Iteration.Closing (c : Cluster σ μ) (verifier : Verifier) (ts : List (Task μ))
    (w : World σ μ) (it : Iteration) : Prop
  | judged {events : List Occurrence} (empty : w.pending.isEmpty = true)
      (verdict : judge c verifier it.executed { w with events := events } = (it.outcome, it.judged))
  | late {f : Failure} (pending : w.pending.isEmpty = false) (spent : c.config.taskBudget ≤ ts.length)
      (outcome : it.outcome = .failed f) (kind : f.kind = .deadlock c.config.timeout)
  /-- A task whose handler does not return takes all the time there is. -/
  | failed {t : Task μ} {e : Abort} {w' : World σ μ} {f : Failure}
      (fails : Fails c (.driven c.config.order) (finishedBy none ts) w t e w')
      (outcome : it.outcome = .failed f) (kind : e ≠ .timeout → f.kind = .unexpected e.message none)

variable [Share F] {spot : Nat → Spot σ μ} {verifier : Verifier}

namespace Iteration

/-- **How an exploring iteration of a placid cluster ends** along a path that can be walked. -/
theorem closing_of_walk (hc : c.registry.Deterministic) (hplacid : c.Placid) {tree : Tree F}
    (h : Chart c tree spot) {path : List TaskId} (hpath : Passable c (Spot.start c) path)
    (w : World σ μ) (verifier : Verifier) :
    ∃ ts w', Schedule c (.driven c.config.order) none (Spot.start c).world ts w' ∧
      (run c verifier path tree w).1.executed = ts.map Task.id ∧
      (run c verifier path tree w).1.afterwards = [] ∧
      (run c verifier path tree w).1.Closing c verifier ts w' := by
  obtain ⟨spot', -, hexplores⟩ := Walker.explore_explores hc h hpath w
  unfold run walk
  rcases htasks : Walker.explore c path (start c tree w) with ⟨e | b, mid⟩
  · rw [htasks] at hexplores
    obtain ⟨hexecuted, hafter, -⟩ := close_record c verifier true (.error e) mid mid
    have hafter := hafter.trans List.drop_length
    rcases Walker.explore_error_cases hc h hpath htasks with
      ⟨rfl, ts, w', hexceeds, hids⟩ | ⟨ts, t, ⟨w₁, hschedule, hfails⟩, -, hids⟩
    · exact ⟨ts, w', hexceeds.schedule, hexecuted.trans hids, hafter,
        .late hexceeds.pending hexceeds.spent rfl rfl⟩
    · refine ⟨ts, w₁, hschedule, hexecuted.trans hids, hafter, ?_⟩
      by_cases he : e = .timeout
      · subst he
        exact .failed hfails rfl fun hne => absurd rfl hne
      · obtain ⟨houtcome, -, -⟩ :=
          close_of_error c verifier true he (hexplores.blameless e rfl) mid mid
        exact .failed hfails houtcome fun _ => rfl
  · rw [htasks] at hexplores
    obtain ⟨n, ts, hends⟩ := hexplores.ends b rfl
    have hempty : mid.world.pending.isEmpty = true := hends.drains.empty
    obtain ⟨events, hend⟩ := Walker.endScenario_of_placid hplacid hempty
    have hreached := hexplores.chart.reached n hends.leaf
    -- The verdict does not depend on how many instances were made.
    have hverdict : judge c verifier mid.executed { mid.world.forget with events := events } =
        judge c verifier mid.executed { mid.world with events := events } := rfl
    refine ⟨_, _, schedule_of_endsAt hreached hends, ?_, ?_, ?_⟩
    all_goals dsimp only; rw [hend]
    · exact hends.executed
    · exact List.drop_length
    · exact .judged hempty hverdict

end Iteration

/-- **How the iterations of a search on a placid cluster end**, whatever went before. -/
theorem Explorer.Reachable.closing (hc : c.registry.Deterministic) (hplacid : c.Placid)
    {x : Explorer F σ μ} (hx : Reachable c verifier x) {it : Iteration}
    (hit : it ∈ x.run.1.history) :
    ∃ ts w, Schedule c (.driven c.config.order) none (Spot.start c).world ts w ∧
      it.executed = ts.map Task.id ∧ it.afterwards = [] ∧ it.Closing c verifier ts w := by
  obtain ⟨z, hz, rfl, -⟩ := hx.mem_run hc hit
  obtain ⟨spot, hchart⟩ := hz.chart
  have hclosing := Iteration.closing_of_walk hc hplacid hchart
    (hchart.passable_plan z.switches z.source) z.world verifier
  rw [hz.iterate_fst, course, hz.cluster]
  exact hclosing

end Interleave
