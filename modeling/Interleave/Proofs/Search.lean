/-
# The search never trips over itself

Whatever a search was asked to do before, and however its iterations ended, its
tree is charted (`Explorer.Reachable.charted`): an iteration keeps to the chart, and a
replay hands back the tree as it was (`Explorer.replay_eq`). So no exploring iteration
ever finds a task of its path missing, a task not eligible at a node, or other tasks
eligible than before: it fails only for reasons of the nodes
(`Explorer.external_of_failed`).

An iteration that is not cut short has a record to show: the tasks it executed
and drained, the end of the scenario, and the verdict on the state that led to
(`Iteration.Records`).
-/
import Interleave.Proofs.Exploration
import Interleave.Proofs.Marks

namespace Interleave

variable {F σ μ : Type} [Share F] {c : Cluster σ μ} {verifier : Verifier} {spot : Nat → Spot σ μ}

/-- The causes of a failure for which the search is not to blame: the results, the state of a node,
the time, or an error or panic of node logic. Such an iteration does not show the tree. -/
inductive FailureCause.External : FailureCause → Prop
  | results (r : Results) : External (.wrongResults r)
  | state (v : NodeId) (message : String) : External (.invalidState v message)
  | time (timeout : Duration) : External (.deadlock timeout)
  | abort {e : Abort} (htree : ∀ detail, e ≠ .treeInvariant detail)
      (htask : ∀ id, e ≠ .unknownTask id) : External (.unexpected e.message none)

/-- The failure of a run is that of one of its iterations. -/
theorem SearchReport.exists_of_failure? {r : SearchReport} {f : Failure} (h : r.failure? = some f) :
    ∃ it ∈ r.history, it.outcome = .failed f := by
  obtain ⟨it, hit, hfailed⟩ := Option.bind_eq_some_iff.mp h
  refine ⟨it, List.mem_of_getLast? hit, ?_⟩
  cases houtcome : it.outcome with
  | completed =>
    rw [houtcome] at hfailed
    cases hfailed
  | failed =>
    rw [houtcome] at hfailed
    cases hfailed
    rfl

namespace Iteration

/-! ### Whole iterations -/

/-- How both halves of an exploring iteration go: the tree, of `size` nodes before, stays charted,
and either they fail without blame for the search or they come to their end. -/
structure Walks (c : Cluster σ μ) (spot : Nat → Spot σ μ) (size : Nat)
    (r : Except Abort Bool × Walk F σ μ × Walk F σ μ) : Prop where
  chart : Chart c r.2.2.tree spot
  grown : size ≤ r.2.2.tree.size
  blameless : ∀ e, r.1 = .error e → e.isInternal = false
  ends : ∀ b, r.1 = .ok b → ∃ n ts us w, EndsAt c spot c.config.taskBudget n ts b r.2.1 ∧
    Closes c r.2.1.world us w ∧ us.length ≤ r.2.1.time ∧ r.2.2 = r.2.1.moved us w

theorem walk_walks (hc : c.registry.Deterministic) {tree : Tree F} (h : Chart c tree spot)
    {path : List TaskId} (hpath : Passable c (Spot.start c) path) (w : World σ μ) :
    ∃ spot', Extends tree.size spot spot' ∧
      Walks c spot' tree.size (walk c (Walker.explore c path) (start c tree w)) := by
  obtain ⟨spot', hextends, hexplores⟩ := Walker.explore_explores hc h hpath w
  refine ⟨spot', hextends, ?_⟩
  unfold walk
  rcases htasks : Walker.explore c path (start c tree w) with ⟨e | b, mid⟩
  · rw [htasks] at hexplores
    exact ⟨hexplores.chart, hexplores.grown, hexplores.blameless, fun b hb => (by cases hb)⟩
  rw [htasks] at hexplores
  dsimp only
  rcases hend : Walker.endScenario c mid with ⟨e | u, last⟩
  · obtain ⟨he, htree, -⟩ := Walker.endScenario_error hc hend
    refine ⟨htree ▸ hexplores.chart, htree ▸ hexplores.grown, fun e' he' => ?_, fun b hb => (by cases hb)⟩
    cases he'
    exact he
  · obtain ⟨us, w', hcloses, hle, rfl⟩ := Walker.endScenario_ok_iff.mp hend
    obtain ⟨n, ts, hends⟩ := hexplores.ends b rfl
    refine ⟨hexplores.chart, hexplores.grown, fun e he => (by cases he), fun b' hb' => ?_⟩
    cases hb'
    exact ⟨n, ts, us, w', hends, hcloses, hle, rfl⟩

/-- The iteration executed the tasks of `s`, drained, and ended the scenario in state `w`. -/
structure Records (c : Cluster σ μ) (verifier : Verifier) (s : Spot σ μ) (w : World σ μ)
    (it : Iteration) : Prop where
  course : ∃ ts w₁ us, Drains c s.world ts w₁ ∧ Closes c w₁ us w ∧
    it.executed = (s.tasks ++ ts).map Task.id ∧ it.afterwards = us.map Task.id
  time : it.executed.length + it.afterwards.length ≤ c.config.taskBudget
  interrupted : it.interrupted = !s.world.pending.isEmpty
  verdict : judge c verifier it.executed w = (it.outcome, it.judged)
  trace : it.trace = w.events

/-- An iteration that came to its end has a record, for a spot where nothing was eligible. Other
nodes it passed had something eligible. -/
theorem Walks.records (hc : c.registry.Deterministic) {size : Nat}
    {r : Except Abort Bool × Walk F σ μ × Walk F σ μ} (h : Walks c spot size r) {b : Bool}
    (hb : r.1 = .ok b) (verifier : Verifier) : ∃ n w, n < r.2.2.tree.size ∧
      (spot n).choices c = [] ∧ Records c verifier (spot n) w (close c verifier true r).1 ∧
      (close c verifier true r).2.2.events = w.events ∧
      ∀ m ∈ r.2.2.visited, m < r.2.2.tree.size ∧ (m = n ∨ (spot m).choices c ≠ []) := by
  obtain ⟨n, ts, us, w, hends, hcloses, hle, hlast⟩ := h.ends b hb
  rcases r with ⟨result, mid, last⟩
  dsimp only at hb hends hcloses hle hlast
  subst hb hlast
  have hafter : (mid.moved us w).executed.drop mid.executed.length = us.map Task.id :=
    List.drop_left
  refine ⟨n, w.forget, hends.leaf, hends.dry, ⟨⟨ts, _, us, hends.drains, hcloses.forget hc,
    hends.executed, hafter⟩, ?_, hends.interrupted, rfl, rfl⟩, rfl, hends.trail⟩
  show mid.executed.length + ((mid.moved us w).executed.drop mid.executed.length).length ≤ _
  rw [hafter, List.length_map, ← hends.time]
  exact Nat.add_le_add_left hle _

/-- A verdict depends on nothing but the state without the count. -/
theorem judge_congr {executed : List TaskId} {w w' : World σ μ} (h : w'.forget = w.forget) :
    judge c verifier executed w' = judge c verifier executed w := by
  have hforget : ∀ w : World σ μ, judge c verifier executed w.forget = judge c verifier executed w :=
    fun _ => rfl
  rw [← hforget w', h, hforget]

/-- The tree after an iteration. Only an exploring one computes its way anew. -/
theorem tree_close (exploring : Bool) (r : Except Abort Bool × Walk F σ μ × Walk F σ μ) :
    (close c verifier exploring r).2.1 =
      if exploring then (r.2.2.tree.recount r.2.2.visited).2 else r.2.2.tree := by
  rcases r with ⟨e | b, mid, last⟩
  · cases e <;> rfl
  · rfl

/-- A replay hands back the tree it was given. -/
theorem tree_replay (c : Cluster σ μ) (verifier : Verifier) (path : List TaskId) (tree : Tree F)
    (w : World σ μ) : (replay c verifier path tree w).2.1 = tree :=
  (tree_close false _).trans (tree_walk_replay c path tree w)

/-- A verdict does not blame the search. -/
theorem external_of_judge {executed : List TaskId} {w : World σ μ} {f : Failure}
    (hf : (judge c verifier executed w).1 = .failed f) : f.kind.External := by
  unfold judge at hf
  split at hf
  · cases hf
    exact .state _ _
  · dsimp only at hf
    split at hf
    · cases hf
    · cases hf
      exact .results _

/-- An iteration cut short without blame for the search does not show the tree. -/
theorem external_of_blameless {r : Except Abort Bool × Walk F σ μ × Walk F σ μ} {exploring : Bool}
    (h : ∀ e, r.1 = .error e → e.isInternal = false) {f : Failure}
    (hf : (close c verifier exploring r).1.outcome = .failed f) : f.kind.External := by
  rcases r with ⟨e | b, mid, last⟩
  · have he := h e rfl
    cases e with
    | timeout =>
      cases hf
      exact .time _
    | treeInvariant => cases he
    | unknownTask => cases he
    | _ =>
      cases hf
      exact .abort (fun _ h => by cases h) (fun _ h => by cases h)
  · exact external_of_judge hf

end Iteration

/-! ### Searches -/

namespace Explorer

/-- Every iteration of a run starts from a search that keeps what iterations keep. After one that
failed the run is over. -/
theorem mem_runLoop {I : Explorer F σ μ → Prop} (hstep : ∀ y, I y → I y.iterate.2) :
    ∀ (fuel : Nat) {history : List Iteration} {x : Explorer F σ μ}, I x →
      I (runLoop fuel history x).2 ∧ ∀ it ∈ (runLoop fuel history x).1, it ∈ history ∨
        ∃ y, I y ∧ it = y.iterate.1 ∧
          (it.outcome.isFailure = true → (runLoop fuel history x).2 = y.iterate.2)
  | 0, _, _, hx => ⟨hx, fun _ hit => .inl hit⟩
  | fuel + 1, history, x, hx => by
    unfold runLoop
    split
    · exact ⟨hx, fun _ hit => .inl hit⟩
    dsimp only
    split
    · refine ⟨hstep x hx, fun it hit => ?_⟩
      rcases List.mem_cons.mp hit with rfl | hit
      · exact .inr ⟨x, hx, rfl, fun _ => rfl⟩
      · exact .inl hit
    · rename_i hok
      obtain ⟨hlast, hmem⟩ := mem_runLoop hstep fuel (hstep x hx)
      refine ⟨hlast, fun it hit => ?_⟩
      rcases hmem it hit with hit | hit
      · rcases List.mem_cons.mp hit with rfl | hit
        · exact .inr ⟨x, hx, rfl, fun hfail => absurd hfail hok⟩
        · exact .inl hit
      · exact .inr hit

/-- The searches that a new one can become, by runs and replays in any order. -/
inductive Reachable (c : Cluster σ μ) (verifier : Verifier) : Explorer F σ μ → Prop
  | new {x : Explorer F σ μ} (h : Explorer.new c verifier = .ok x) : Reachable c verifier x
  | run {x : Explorer F σ μ} (h : Reachable c verifier x) : Reachable c verifier x.run.2
  | replay {x : Explorer F σ μ} (h : Reachable c verifier x) (path : List TaskId) :
      Reachable c verifier (x.replay path).2

/-- A search on a setup before its first iteration. -/
def fresh (c : Cluster σ μ) (verifier : Verifier) : Explorer F σ μ :=
  ⟨c, verifier, Tree.empty c.config.order, Source.ofSeed c.config.seed, 0, World.new c⟩

theorem new_eq_fresh (h : c.toSetup.accept = .ok ()) :
    Explorer.new c verifier = .ok (fresh c verifier : Explorer F σ μ) := by
  unfold Explorer.new
  rw [h]
  rfl

/-- A search that was made is a fresh one, on a setup that is accepted. -/
theorem eq_fresh_of_new {x : Explorer F σ μ} (h : Explorer.new c verifier = .ok x) :
    x = fresh c verifier ∧ c.toSetup.accept = .ok () := by
  unfold Explorer.new at h
  split at h
  · cases h
  · rename_i haccept
    cases h
    exact ⟨rfl, haccept⟩

/-- A search of a cluster whose tree is charted. -/
structure Charted (c : Cluster σ μ) (verifier : Verifier) (x : Explorer F σ μ) : Prop where
  cluster : x.cluster = c
  verifier : x.verifier = verifier
  chart : ∃ spot, Chart c x.tree spot

theorem charted_fresh : Charted c verifier (fresh c verifier : Explorer F σ μ) :=
  ⟨rfl, rfl, _, .empty c⟩

theorem charted_new {x : Explorer F σ μ} (h : Explorer.new c verifier = .ok x) :
    Charted c verifier x := (eq_fresh_of_new h).1 ▸ charted_fresh

/-- The two halves of the next iteration. -/
def course (x : Explorer F σ μ) : Except Abort Bool × Walk F σ μ × Walk F σ μ :=
  Iteration.walk x.cluster (Walker.explore x.cluster (x.tree.plan x.switches x.source).1)
    (Iteration.start x.cluster x.tree x.world)

theorem Charted.iterate_fst {x : Explorer F σ μ} (h : Charted c verifier x) :
    x.iterate.1 = (Iteration.close c verifier true x.course).1 := by
  rw [← h.cluster, ← h.verifier]
  rfl

theorem Charted.world_iterate {x : Explorer F σ μ} (h : Charted c verifier x) :
    x.iterate.2.world = (Iteration.close c verifier true x.course).2.2 := by
  rw [← h.cluster, ← h.verifier]
  rfl

theorem tree_iterate (x : Explorer F σ μ) :
    x.iterate.2.tree = (x.course.2.2.tree.recount x.course.2.2.visited).2 :=
  Iteration.tree_close true x.course

/-- A replay changes nothing of a search but what the last iteration left: the tree comes back as it
was. -/
theorem replay_eq (x : Explorer F σ μ) (path : List TaskId) :
    x.replay path = ((Iteration.replay x.cluster x.verifier path x.tree x.world).1.outcome,
      { x with world := (Iteration.replay x.cluster x.verifier path x.tree x.world).2.2 }) := by
  have htree := Iteration.tree_replay x.cluster x.verifier path x.tree x.world
  unfold replay
  dsimp only
  rw [htree]

theorem Charted.replay_eq {x : Explorer F σ μ} (h : Charted c verifier x) (path : List TaskId) :
    x.replay path = ((Iteration.replay c verifier path x.tree x.world).1.outcome,
      { x with world := (Iteration.replay c verifier path x.tree x.world).2.2 }) := by
  rw [Explorer.replay_eq, h.cluster, h.verifier]

/-- What holds of a fresh search and is kept by every iteration, whatever the last one left, holds
after all runs and replays. -/
theorem Reachable.keeps {I : Explorer F σ μ → Prop} {x : Explorer F σ μ}
    (h : Reachable c verifier x) (hfresh : I (fresh c verifier))
    (hiterate : ∀ y, I y → I y.iterate.2) (hworld : ∀ y w, I y → I { y with world := w }) : I x := by
  induction h with
  | new h => exact (eq_fresh_of_new h).1 ▸ hfresh
  | run _ ih => exact (mem_runLoop hiterate _ ih).1
  | replay _ path ih =>
    rw [replay_eq]
    exact hworld _ _ ih

/-- The next iteration keeps to the chart. -/
theorem walks_course (hc : c.registry.Deterministic) {x : Explorer F σ μ} (hx : x.cluster = c)
    (h : Chart c x.tree spot) : ∃ spot', Extends x.tree.size spot spot' ∧
      Iteration.Walks c spot' x.tree.size x.course := by
  subst hx
  exact Iteration.walk_walks hc h (h.passable_plan x.switches x.source) x.world

theorem Charted.iterate (hc : c.registry.Deterministic) {x : Explorer F σ μ}
    (h : Charted c verifier x) : Charted c verifier x.iterate.2 := by
  obtain ⟨spot, hchart⟩ := h.chart
  obtain ⟨spot', -, hwalks⟩ := walks_course hc h.cluster hchart
  refine ⟨h.cluster, h.verifier, spot', ?_⟩
  rw [tree_iterate]
  exact hwalks.chart.recountUp

theorem Reachable.charted (hc : c.registry.Deterministic) {x : Explorer F σ μ}
    (h : Reachable c verifier x) : Charted c verifier x :=
  h.keeps charted_fresh (fun _ hy => hy.iterate hc) fun _ _ hy => ⟨hy.cluster, hy.verifier, hy.chart⟩

/-- The iterations of a run start from charted searches. -/
theorem Reachable.mem_run (hc : c.registry.Deterministic) {x : Explorer F σ μ}
    (h : Reachable c verifier x) {it : Iteration} (hit : it ∈ x.run.1.history) :
    ∃ y : Explorer F σ μ, Charted c verifier y ∧ it = y.iterate.1 ∧
      (it.outcome.isFailure = true → x.run.2 = y.iterate.2) := by
  have hmem := (mem_runLoop (fun _ hy => hy.iterate hc) x.cluster.config.maxIterations
    (h.charted hc)).2 it (List.mem_reverse.mp hit)
  exact hmem.resolve_left List.not_mem_nil

/-- **The search never trips over itself.** Whatever runs and replays went before, and however
they ended, no iteration of a run is cut short because a task of its path is not pending or because
the tree does not fit the execution. -/
theorem external_of_failed (hc : c.registry.Deterministic) {x : Explorer F σ μ}
    (h : Reachable c verifier x) {it : Iteration} (hit : it ∈ x.run.1.history) {f : Failure}
    (hf : it.outcome = .failed f) : f.kind.External := by
  obtain ⟨y, hy, rfl, -⟩ := h.mem_run hc hit
  obtain ⟨spot, hchart⟩ := hy.chart
  obtain ⟨spot', -, hwalks⟩ := walks_course hc hy.cluster hchart
  rw [hy.iterate_fst] at hf
  exact Iteration.external_of_blameless hwalks.blameless hf

end Explorer

/-- Two peers that cannot run their operations. -/
def Broadcast.raising : Cluster Broadcast.Peer String :=
  { Broadcast.pair with
    protocol := { Broadcast.protocol with onOperation := fun _ _ _ => .raise (some "lost") } }

/-- After a run and a replay that were both cut short by a panic, so is the next run. -/
theorem Explorer.external_of_failed_raising :
    ∃ f, ((fresh Broadcast.raising .acceptAll : Explorer Float _ _).run.2.replay
        [⟨1⟩]).2.run.1.failure? = some f ∧ f.kind.name = "UnexpectedException" ∧
      f.kind.External := by
  have hc : Broadcast.raising.registry.Deterministic := Broadcast.deterministic_pair
  have hx : Reachable Broadcast.raising .acceptAll
      (fresh Broadcast.raising .acceptAll : Explorer Float _ _) := .new (new_eq_fresh rfl)
  have hname : ((fresh Broadcast.raising .acceptAll : Explorer Float _ _).run.2.replay
      [⟨1⟩]).2.run.1.failure?.map (·.kind.name) = some "UnexpectedException" := by decide +kernel
  obtain ⟨f, hf, hname⟩ := Option.map_eq_some_iff.mp hname
  obtain ⟨it, hit, houtcome⟩ := SearchReport.exists_of_failure? hf
  exact ⟨f, hf, hname, external_of_failed hc (hx.run.replay _) hit houtcome⟩

end Interleave
