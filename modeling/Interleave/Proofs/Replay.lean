/-
# Failures replay exactly

An exploring iteration and a replay are driven in different ways: the one by a
path, canonical choices and draining, the other by the list of executed tasks.
Both are the same schedule, from states that differ in the count of instances
only. So a replay of what an iteration executed comes to the same end of the
scenario, in the same time, and to the same verdict (`Iteration.replay_of_records`), and
a failure that was reported comes back (`Explorer.replay_failed`).
-/
import Interleave.Proofs.Search

namespace Interleave

variable {F σ μ : Type} [Share F] {c : Cluster σ μ} {verifier : Verifier}

namespace Iteration

variable {s : Spot σ μ} {w : World σ μ} {it : Iteration}

/-- **A replay of what an iteration executed** leads to the same verdict and trace. -/
theorem replay_of_records (hc : c.registry.Deterministic) (hs : s.Reached c)
    (h : Records c verifier s w it) (tree : Tree F) (w₀ : World σ μ) :
    (replay c verifier it.executed tree w₀).1.outcome = it.outcome ∧
      (replay c verifier it.executed tree w₀).2.2.events = it.trace := by
  obtain ⟨ts, w₁, us, hdrains, hcloses, hexecuted, hafterwards⟩ := h.course
  have htime := h.time
  rw [hafterwards, hexecuted, List.length_map, List.length_map] at htime
  -- the whole schedule, first at the spot and then in the state of the replay
  have hschedule : Schedule c .any none (Spot.start c).world (s.tasks ++ ts) w₁ :=
    (hs.mono fun _ _ _ _ => trivial).append
      ((hdrains.schedule.mono fun _ _ _ _ => trivial).of_finished (fun _ _ _ _ h => h) _)
  obtain ⟨v₁, hschedule', hv₁⟩ := hschedule.transport hc
    (v := w₀.reset c) (World.forget_reset hc w₀ _)
  have hempty : v₁.pending.isEmpty = true := by
    have hpending : v₁.forget.pending = w₁.forget.pending := congrArg World.pending hv₁
    rw [show v₁.pending = w₁.pending from hpending]
    exact hdrains.empty
  obtain ⟨v, hcloses', hv⟩ := hcloses.transport hc hv₁
  have htasks : Walker.replay c it.executed (start c tree w₀) =
      (.ok false, (start c tree w₀).moved (s.tasks ++ ts) v₁) := by
    rw [hexecuted]
    exact Walker.replay_of_schedule hschedule' (Nat.le_of_add_right_le htime) hempty
  have hend : Walker.endScenario c ((start c tree w₀).moved (s.tasks ++ ts) v₁) =
      (.ok (), ((start c tree w₀).moved (s.tasks ++ ts) v₁).moved us v) :=
    Walker.endScenario_ok_iff.mpr ⟨us, v, hcloses', Nat.le_sub_of_add_le' htime, rfl⟩
  have hids : ((start c tree w₀).moved (s.tasks ++ ts) v₁).executed = it.executed := by
    rw [hexecuted]
    exact List.nil_append _
  unfold replay walk
  rw [htasks]
  dsimp only
  rw [hend]
  have hverdict := h.verdict
  rw [← judge_congr hv, ← hids] at hverdict
  refine ⟨congrArg Prod.fst hverdict, ?_⟩
  have hevents : v.forget.events = w.forget.events := congrArg World.events hv
  exact hevents.trans h.trace.symm

/-- What a failed verdict carries. -/
theorem failure_of_judge {executed : List TaskId} {f : Failure}
    (h : (judge c verifier executed w).1 = .failed f) :
    f.interleaving = executed ∧ f.trace = w.events := by
  unfold judge at h
  split at h
  · cases h
    exact ⟨rfl, rfl⟩
  · dsimp only at h
    split at h
    · cases h
    · cases h
      exact ⟨rfl, rfl⟩

/-- Only an iteration that came to its end is judged. -/
theorem ok_of_verdict {r : Except Abort Bool × Walk F σ μ × Walk F σ μ} {f : Failure}
    (hf : (close c verifier true r).1.outcome = .failed f)
    (hkind : (∃ results, f.kind = .wrongResults results) ∨
      ∃ v message, f.kind = .invalidState v message) : ∃ b, r.1 = .ok b := by
  rcases r with ⟨e | b, mid, last⟩
  · cases e <;> cases hf <;> rcases hkind with ⟨_, h⟩ | ⟨_, _, h⟩ <;> cases h
  · exact ⟨b, rfl⟩

end Iteration

namespace Explorer

/-- **A reported failure of the results or of a state replays exactly.** On a new search with the
same setup, a replay of its interleaving returns the very same failure and leaves the same trace. -/
theorem replay_failed (hc : c.registry.Deterministic) {x y : Explorer F σ μ}
    (hx : Reachable c verifier x) (hy : Explorer.new c verifier = .ok y) {it : Iteration}
    (hit : it ∈ x.run.1.history) {f : Failure} (hf : it.outcome = .failed f)
    (hkind : (∃ results, f.kind = .wrongResults results) ∨
      ∃ v message, f.kind = .invalidState v message) :
    (y.replay f.interleaving).1 = .failed f ∧
      (y.replay f.interleaving).2.lastTrace = x.run.2.lastTrace := by
  obtain ⟨z, hz, rfl, hlast⟩ := hx.mem_run hc hit
  have hrun := hlast (by rw [hf]; rfl)
  obtain ⟨spot, hchart⟩ := hz.chart
  obtain ⟨spot', -, hwalks⟩ := walks_course hc hz.cluster hchart
  obtain ⟨b, hb⟩ := Iteration.ok_of_verdict hf hkind
  obtain ⟨n, w, hn, -, hrecords, hevents, -⟩ := hwalks.records hc hb verifier
  rw [← hz.iterate_fst] at hrecords
  have hfailure : (Iteration.judge c verifier z.iterate.1.executed w).1 = .failed f := by
    rw [hrecords.verdict]
    exact hf
  obtain ⟨hinterleaving, -⟩ := Iteration.failure_of_judge hfailure
  obtain ⟨houtcome, htrace⟩ :=
    Iteration.replay_of_records hc (hwalks.chart.reached n hn) hrecords y.tree y.world
  rw [hinterleaving, (charted_new hy).replay_eq]
  refine ⟨houtcome.trans hf, ?_⟩
  calc (Iteration.replay c verifier z.iterate.1.executed y.tree y.world).2.2.events
      = z.iterate.1.trace := htrace
    _ = w.events := hrecords.trace
    _ = z.iterate.2.lastTrace := by rw [lastTrace, hz.world_iterate, hevents]
    _ = x.run.2.lastTrace := by rw [hrun]

theorem replay_failed_pair :
    ∃ f, (fresh Broadcast.pair .rejectAll : Explorer Float _ _).run.1.failure? = some f ∧
      ((fresh Broadcast.pair .rejectAll : Explorer Float _ _).replay f.interleaving).1 = .failed f ∧
      ((fresh Broadcast.pair .rejectAll : Explorer Float _ _).replay f.interleaving).2.lastTrace =
        (fresh Broadcast.pair .rejectAll : Explorer Float _ _).run.2.lastTrace := by
  have hnew : Explorer.new Broadcast.pair .rejectAll =
      .ok (fresh Broadcast.pair .rejectAll : Explorer Float _ _) := new_eq_fresh rfl
  have hname : (fresh Broadcast.pair .rejectAll : Explorer Float _ _).run.1.failure?.map
      (·.kind.name) = some "IncorrectResults" := by decide +kernel
  obtain ⟨f, hf, hname⟩ := Option.map_eq_some_iff.mp hname
  obtain ⟨it, hit, houtcome⟩ := SearchReport.exists_of_failure? hf
  have hkind : ∃ results, f.kind = .wrongResults results := by
    cases hcause : f.kind with
    | wrongResults results => exact ⟨results, rfl⟩
    | _ =>
      rw [hcause] at hname
      simp [FailureCause.name] at hname
  exact ⟨f, hf, replay_failed Broadcast.deterministic_pair (.new hnew) hnew hit houtcome
    (.inl hkind)⟩

end Explorer

end Interleave
