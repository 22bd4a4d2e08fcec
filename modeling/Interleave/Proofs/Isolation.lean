/-
# Iterations are isolated

An iteration starts from a state that earlier ones have no part in but by the
count of the instances they made. With factories that make the same instance
every time, the count decides nothing. So what a search returns depends on its
tree, its random source and its switches, and not on what the last iteration left
behind: a failed one, a panic in the midst of a change or a deadlock included.

A replay changes none of the three. It goes the same way on every search with the
same setup, and the calls after it return what they would have returned without
it. It looks at the tree in one case only: where a task of the path is not
pending the failure shows the tree of the search at hand, so that there two
searches can differ in what they show.

Key definitions: `Attempt.Blind`, `Walk.blur`, `Explorer.Alike`, `Call`, `Explorer.answers`.
Key theorems: `Walker.blind_replay`, `Walker.blind_explore`, `Iteration.replay_alike`,
`Explorer.Alike.answers`, `Explorer.replay_isolated`, `Explorer.replay_shows_tree`.
-/
import Interleave.Proofs.CutShort
import Interleave.Proofs.Marks
import Interleave.Proofs.Search

namespace Interleave

variable {F σ μ α β : Type} {c : Cluster σ μ} {verifier : Verifier}

/-! ### What a computation does not look at -/

namespace Attempt

variable {S : Type} {f : S → S}

/-- The computation does not look at what `f` changes: it goes the same way from the changed state,
to the changed end. -/
def Blind (f : S → S) (s : Attempt S α) : Prop := ∀ w, s (f w) = ((s w).1, f (s w).2)

theorem blind_pure (a : α) : Blind f (pure a : Attempt S α) := fun _ => rfl

theorem blind_throw (e : Abort) : Blind f (throw e : Attempt S α) := fun _ => rfl

theorem Blind.bind {s : Attempt S α} {g : α → Attempt S β} (hs : Blind f s)
    (hg : ∀ a, Blind f (g a)) : Blind f (s >>= g) := by
  intro w
  rw [bind_apply, bind_apply, hs w]
  rcases s w with ⟨e | a, w₁⟩
  · rfl
  · exact hg a w₁

/-- Reading what `f` leaves as it is. -/
theorem blind_read {g : S → Attempt S α} (hread : ∀ w, g (f w) = g w) (hg : ∀ w, Blind f (g w)) :
    Blind f (get >>= g) := by
  intro w
  rw [get_bind, get_bind, hread]
  exact hg w w

/-- From two states that `f` makes equal the computation gives the same answer, and `f` makes the
states it leads to equal. -/
theorem Blind.congr {s : Attempt S α} (hs : Blind f s) {w w' : S} (h : f w = f w') :
    (s w).1 = (s w').1 ∧ f (s w).2 = f (s w').2 := by
  have heq : ((s w).1, f (s w).2) = ((s w').1, f (s w').2) := by rw [← hs w, ← hs w', h]
  exact Prod.mk.inj heq

end Attempt

/-- An iteration without the count of instances, and with the tree that `g` makes of its tree. -/
def Walk.blur (g : Tree F → Tree F) (k : Walk F σ μ) : Walk F σ μ :=
  { k with world := k.world.forget, tree := g k.tree }

/-- What iterations that look alike have in common. -/
theorem Walk.of_blur_eq {g : Tree F → Tree F} {k k' : Walk F σ μ} (h : k.blur g = k'.blur g) :
    k.world.forget = k'.world.forget ∧ k.world.events = k'.world.events ∧ g k.tree = g k'.tree ∧
      k.executed = k'.executed ∧ k.visited = k'.visited := by
  obtain ⟨hworld, htree, hexecuted, hvisited, -⟩ := Walk.mk.inj h
  have hevents : k.world.forget.events = k'.world.forget.events := by rw [hworld]
  exact ⟨hworld, hevents, htree, hexecuted, hvisited⟩

namespace Walker

open Attempt

variable {g : Tree F → Tree F}

theorem blind_execute (hc : c.registry.Deterministic) (id : TaskId) :
    Blind (Walk.blur g) (execute c id : Walker F σ μ TaskView) := by
  intro k
  have hclock : (k.blur g).time = k.time := rfl
  have hpending : (k.blur g).world.pending = k.world.pending := rfl
  rw [execute_apply, execute_apply, hclock, hpending]
  by_cases htime : k.time = 0
  · rw [if_pos htime, if_pos htime]
  rw [if_neg htime, if_neg htime]
  cases htake : k.world.pending.take id with
  | none => rfl
  | some taken =>
    obtain ⟨task, pending⟩ := taken
    have hforgets := (Step.regular_execute hc task).forgets { k.world with pending := pending }
    have hstart : ({ (k.blur g).world with pending := pending } : World σ μ) =
        ({ k.world with pending := pending } : World σ μ).forget := rfl
    dsimp only
    rw [hstart, hforgets]
    rcases Step.execute c task { k.world with pending := pending } with ⟨e | u, w⟩ <;> rfl

theorem blind_drainLoop (hc : c.registry.Deterministic) :
    ∀ n, Blind (Walk.blur g) (drainLoop c n : Walker F σ μ Unit)
  | 0 => by
    refine blind_read (fun _ => rfl) fun k => ?_
    split
    · exact blind_throw _
    · exact blind_pure _
  | n + 1 => by
    refine blind_read (fun _ => rfl) fun k => ?_
    split
    · exact blind_pure _
    · exact (blind_execute hc _).bind fun _ => blind_drainLoop hc n

theorem blind_drain (hc : c.registry.Deterministic) :
    Blind (Walk.blur g) (drain c : Walker F σ μ Unit) :=
  blind_read (fun _ => rfl) fun _ => blind_drainLoop hc _

theorem blind_forM_execute (hc : c.registry.Deterministic) : ∀ path : List TaskId,
    Blind (Walk.blur g) (path.forM fun id => (do let _ ← execute c id : Walker F σ μ Unit))
  | [] => blind_pure _
  | id :: path =>
    ((blind_execute hc id).bind fun _ => blind_pure ()).bind fun _ => blind_forM_execute hc path

/-- A replay looks neither at the tree nor at the count. -/
theorem blind_replay (hc : c.registry.Deterministic) (path : List TaskId) :
    Blind (Walk.blur g) (replay c path : Walker F σ μ Bool) :=
  (blind_forM_execute hc path).bind fun _ => (blind_drain hc).bind fun _ => blind_pure false

theorem blind_endScenario (hc : c.registry.Deterministic) :
    Blind (Walk.blur g) (endScenario c : Walker F σ μ Unit) := by
  intro k
  unfold endScenario
  rw [get_bind, get_bind]
  have htell : tellAll c ((List.range (k.blur g).world.size).map NodeId.ofIndex) (k.blur g).world =
      ((tellAll c ((List.range k.world.size).map NodeId.ofIndex) k.world).1,
        (tellAll c ((List.range k.world.size).map NodeId.ofIndex) k.world).2.forget) :=
    tellAll_forget c _ k.world
  rw [htell]
  rcases tellAll c ((List.range k.world.size).map NodeId.ofIndex) k.world with ⟨_ | e, w⟩
  · exact blind_drain hc { k with world := w }
  · rfl

theorem blind_onTree (f : Tree F → Except TreeError α × Tree F) :
    Blind (Walk.blur id) (onTree f : Walker F σ μ α) := fun _ => rfl

theorem blind_settle (n : Nat) (finished : Option TaskView) :
    Blind (Walk.blur id) (settle n finished : Walker F σ μ Unit) := fun _ => rfl

theorem blind_enter (n : Nat) : Blind (Walk.blur id) (enter n : Walker F σ μ Unit) := fun _ => rfl

section

variable [Share F]

theorem blind_exploreLoop (hc : c.registry.Deterministic) : ∀ fuel n path,
    Blind (Walk.blur id) (exploreLoop c fuel n path : Walker F σ μ Bool)
  | 0, _, _ => by
    refine blind_read (fun _ => rfl) fun k => ?_
    split
    · exact blind_pure _
    · exact blind_throw _
  | fuel + 1, n, path => by
    refine blind_read (fun _ => rfl) fun k => ?_
    split
    · exact blind_pure _
    refine blind_read (fun _ => rfl) fun k' => ?_
    split
    · exact (blind_drain hc).bind fun _ => blind_pure _
    refine (blind_execute hc _).bind fun info => (blind_onTree _).bind fun m => ?_
    refine (blind_enter m).bind fun _ => (blind_settle m _).bind fun _ => ?_
    exact blind_exploreLoop hc fuel m _

/-- An exploring iteration looks at the tree, but not at the count. -/
theorem blind_explore (hc : c.registry.Deterministic) (path : List TaskId) :
    Blind (Walk.blur id) (explore c path : Walker F σ μ Bool) := by
  refine (blind_settle _ _).bind fun _ => (blind_enter _).bind fun _ => ?_
  exact blind_read (fun _ => rfl) fun k => blind_exploreLoop hc _ _ _

end

/-- A replay blames the search only for a task of its path that is not pending. -/
theorem mem_of_forM_execute_error (hc : c.registry.Deterministic) {e : Abort} {k' : Walk F σ μ}
    (he : e.isInternal = true) : ∀ {path : List TaskId} {k : Walk F σ μ},
    (path.forM fun id => (do let _ ← execute c id : Walker F σ μ Unit)) k = (.error e, k') →
      ∃ id ∈ path, e = .unknownTask id
  | [], k, h => by cases h
  | id :: path, k, h => by
    rcases bind_error h with hfirst | ⟨u, k₁, -, hrest⟩
    · refine ⟨id, List.mem_cons_self, ?_⟩
      rcases bind_error hfirst with hexecute | ⟨v, k₁, -, hdone⟩
      · cases hget : k.world.pending.get? id with
        | some t =>
          obtain ⟨hblame, -⟩ := execute_error hc hexecute (by rw [hget]; rfl)
          rw [he] at hblame
          cases hblame
        | none =>
          have htake : k.world.pending.take id = none := by simp [Pending.take, hget]
          rw [execute_apply, htake] at hexecute
          by_cases htime : k.time = 0
          · rw [if_pos htime] at hexecute
            cases hexecute
            cases he
          · rw [if_neg htime] at hexecute
            cases hexecute
            rfl
      · cases hdone
    · obtain ⟨id', hmem, heq⟩ := mem_of_forM_execute_error hc he hrest
      exact ⟨id', List.mem_cons_of_mem _ hmem, heq⟩

theorem mem_of_replay_error (hc : c.registry.Deterministic) {e : Abort} (he : e.isInternal = true)
    {path : List TaskId} {k k' : Walk F σ μ} (h : replay c path k = (.error e, k')) :
    ∃ id ∈ path, e = .unknownTask id := by
  rcases bind_error h with hpath | ⟨u, k₁, -, hrest⟩
  · exact mem_of_forM_execute_error hc he hpath
  · rcases bind_error hrest with hdrain | ⟨v, k₂, -, hdone⟩
    · obtain ⟨hblame, -⟩ := drainLoop_error hc hdrain
      rw [he] at hblame
      cases hblame
    · cases hdone

end Walker

/-! ### Whole iterations -/

namespace Iteration

open Attempt

variable {g : Tree F → Tree F} {tasks : Walker F σ μ Bool}

/-- Two iterations that look alike go the same way, and look alike at the end of both halves. -/
theorem walk_blind (hc : c.registry.Deterministic) (htasks : Blind (Walk.blur g) tasks)
    {k k' : Walk F σ μ} (h : k.blur g = k'.blur g) :
    (walk c tasks k).1 = (walk c tasks k').1 ∧
      (walk c tasks k).2.1.blur g = (walk c tasks k').2.1.blur g ∧
      (walk c tasks k).2.2.blur g = (walk c tasks k').2.2.blur g := by
  obtain ⟨hanswer, hmid⟩ := htasks.congr h
  unfold walk
  generalize tasks k = s, tasks k' = s' at hanswer hmid
  rcases s with ⟨r, mid⟩
  rcases s' with ⟨r', mid'⟩
  dsimp only at hanswer hmid
  subst hanswer
  cases r with
  | error e => exact ⟨rfl, hmid, hmid⟩
  | ok b =>
    obtain ⟨hend, hlast⟩ := (Walker.blind_endScenario hc).congr hmid
    dsimp only
    generalize Walker.endScenario c mid = s, Walker.endScenario c mid' = s' at hend hlast
    rcases s with ⟨r, last⟩
    rcases s' with ⟨r', last'⟩
    dsimp only at hend hlast
    subst hend
    cases r <;> exact ⟨rfl, hmid, hlast⟩

/-- All iterations start alike. -/
theorem blur_start (hc : c.registry.Deterministic) (tree tree' : Tree F) (hg : g tree = g tree')
    (w w' : World σ μ) : (start c tree w).blur g = (start c tree' w').blur g := by
  unfold start Walk.blur
  rw [World.forget_reset hc w w', hg]

theorem mem_of_walk_replay_error (hc : c.registry.Deterministic) (path : List TaskId)
    {k : Walk F σ μ} (e : Abort) (h : (walk c (Walker.replay c path) k).1 = .error e)
    (he : e.isInternal = true) : ∃ id ∈ path, e = .unknownTask id := by
  unfold walk at h
  rcases htasks : Walker.replay c path k with ⟨e' | b, mid⟩
  · rw [htasks] at h
    cases h
    exact Walker.mem_of_replay_error hc he htasks
  · rw [htasks] at h
    dsimp only at h
    rcases hend : Walker.endScenario c mid with ⟨e' | u, last⟩
    · rw [hend] at h
      cases h
      obtain ⟨hblame, -⟩ := Walker.endScenario_error hc hend
      rw [he] at hblame
      cases hblame
    · rw [hend] at h
      cases h

variable [Share F]

/-- What is left of an iteration, but for the count. -/
theorem close_congr (exploring : Bool) {r r' : Except Abort Bool} {mid mid' last last' : Walk F σ μ}
    (hr : r = r') (hmid : mid.blur id = mid'.blur id) (hlast : last.blur id = last'.blur id) :
    (close c verifier exploring (r, mid, last)).1 = (close c verifier exploring (r', mid', last')).1 ∧
      (close c verifier exploring (r, mid, last)).2.1 =
        (close c verifier exploring (r', mid', last')).2.1 := by
  subst hr
  obtain ⟨-, -, -, hexecuted, -⟩ := Walk.of_blur_eq hmid
  obtain ⟨hworld, hevents, htree, hafter, hvisited⟩ := Walk.of_blur_eq hlast
  have hjudge : judge c verifier mid'.executed last.world = judge c verifier mid'.executed last'.world :=
    judge_congr hworld
  dsimp only [id_eq] at htree
  unfold close cutShort
  dsimp only
  rw [hexecuted, hafter, htree, hvisited, hevents, hjudge]
  rcases r with e | b
  · cases e <;> exact ⟨rfl, rfl⟩
  · exact ⟨rfl, rfl⟩

/-- An exploring iteration has no part in what the one before it left. -/
theorem run_congr (hc : c.registry.Deterministic) (verifier : Verifier) (path : List TaskId)
    (tree : Tree F) (w w' : World σ μ) : (run c verifier path tree w).1 = (run c verifier path tree w').1 ∧
      (run c verifier path tree w).2.1 = (run c verifier path tree w').2.1 := by
  obtain ⟨hr, hmid, hlast⟩ := walk_blind hc (Walker.blind_explore hc path)
    (blur_start hc (g := id) tree tree rfl w w')
  exact close_congr true hr hmid hlast

/-- Two replays of one path, whatever went before. Either both return the same, or a task of the
path is not pending and each shows its own tree. They leave the same events. -/
theorem replay_alike (hc : c.registry.Deterministic) (verifier : Verifier) (path : List TaskId)
    (tree tree' : Tree F) (w w' : World σ μ) :
    ((replay c verifier path tree w).1.outcome = (replay c verifier path tree' w').1.outcome ∨
      ∃ id ∈ path, ∃ executed trace,
        (replay c verifier path tree w).1.outcome =
          .failed ⟨.unexpected (Abort.unknownTask id).message (some tree.render), executed, trace⟩ ∧
        (replay c verifier path tree' w').1.outcome =
          .failed ⟨.unexpected (Abort.unknownTask id).message (some tree'.render), executed,
            trace⟩) ∧
      (replay c verifier path tree w).2.2.events = (replay c verifier path tree' w').2.2.events := by
  obtain ⟨hr, hmid, hlast⟩ := walk_blind hc (Walker.blind_replay (g := fun _ => tree) hc path)
    (blur_start hc tree tree' rfl w w')
  have htree := tree_walk_replay c path tree w
  have htree' := tree_walk_replay c path tree' w'
  have hblame := mem_of_walk_replay_error (k := start c tree w) hc path
  unfold replay
  generalize walk c (Walker.replay c path) (start c tree w) = s at hr hmid hlast htree hblame
  generalize walk c (Walker.replay c path) (start c tree' w') = s' at hr hmid hlast htree'
  rcases s with ⟨r, mid, last⟩
  rcases s' with ⟨r', mid', last'⟩
  dsimp only at hr hmid hlast htree htree' hblame
  obtain ⟨-, -, -, hexecuted, -⟩ := Walk.of_blur_eq hmid
  obtain ⟨hworld, hevents, -⟩ := Walk.of_blur_eq hlast
  subst hr
  cases r with
  | ok b =>
    have hjudge : judge c verifier mid'.executed last.world = judge c verifier mid'.executed last'.world :=
    judge_congr hworld
    refine ⟨.inl ?_, hevents⟩
    show (judge c verifier mid.executed last.world).1 = (judge c verifier mid'.executed last'.world).1
    rw [hexecuted, hjudge]
  | error e =>
    by_cases htime : e = .timeout
    · subst htime
      refine ⟨.inl ?_, rfl⟩
      show Outcome.failed _ = Outcome.failed _
      rw [hexecuted]
    by_cases he : e.isInternal = true
    · obtain ⟨id, hid, rfl⟩ := hblame e rfl he
      refine ⟨.inr ⟨id, hid, mid.executed, last.world.events, ?_, ?_⟩, hevents⟩
      · rw [← htree]
        rfl
      · rw [← htree', hexecuted, hevents]
        rfl
    · have hblameless : e.isInternal = false := by simpa using he
      obtain ⟨hout, -, hleft⟩ := close_of_error c verifier false htime hblameless mid last
      obtain ⟨hout', -, hleft'⟩ := close_of_error c verifier false htime hblameless mid' last'
      rw [hout, hout', hleft, hleft', hexecuted, hevents]
      exact ⟨.inl rfl, rfl⟩

end Iteration

/-! ### Whole searches -/

/-- A call on a search. -/
inductive Call where
  | run
  | replay (path : List TaskId)

namespace Explorer

variable [Share F] {x y : Explorer F σ μ}

/-- What the calls return, one after the other. -/
def answers (x : Explorer F σ μ) : List Call → List (SearchReport ⊕ Outcome)
  | [] => []
  | .run :: rest => .inl x.run.1 :: x.run.2.answers rest
  | .replay path :: rest => .inr (x.replay path).1 :: (x.replay path).2.answers rest

/-- Two searches of a cluster that differ only in what the last iteration left. -/
structure Alike (c : Cluster σ μ) (x y : Explorer F σ μ) : Prop where
  cluster : x.cluster = c
  same : ∃ w, y = { x with world := w }

theorem Alike.iterate (hc : c.registry.Deterministic) (h : Alike c x y) :
    x.iterate.1 = y.iterate.1 ∧ Alike c x.iterate.2 y.iterate.2 := by
  obtain ⟨hcluster, w, rfl⟩ := h
  subst hcluster
  obtain ⟨hit, htree⟩ := Iteration.run_congr hc x.verifier
    (x.tree.plan x.switches x.source).1 x.tree x.world w
  refine ⟨hit, rfl, ({ x with world := w } : Explorer F σ μ).iterate.2.world, ?_⟩
  unfold Explorer.iterate
  dsimp only
  rw [hit, htree]

theorem Alike.runLoop (hc : c.registry.Deterministic) : ∀ (fuel : Nat) (history : List Iteration)
    {x y : Explorer F σ μ}, Alike c x y →
    (runLoop fuel history x).1 = (runLoop fuel history y).1 ∧
      Alike c (runLoop fuel history x).2 (runLoop fuel history y).2
  | 0, _, _, _, h => ⟨rfl, h⟩
  | fuel + 1, history, x, y, h => by
    obtain ⟨hit, hnext⟩ := h.iterate hc
    have htree : y.tree = x.tree := by
      obtain ⟨-, w, rfl⟩ := h
      rfl
    unfold Explorer.runLoop
    rw [htree]
    split
    · exact ⟨rfl, h⟩
    dsimp only
    rw [← hit]
    split
    · exact ⟨rfl, hnext⟩
    · exact Alike.runLoop hc fuel _ hnext

theorem Alike.run (hc : c.registry.Deterministic) (h : Alike c x y) :
    x.run.1 = y.run.1 ∧ Alike c x.run.2 y.run.2 := by
  have hlimit : y.cluster.config.maxIterations = x.cluster.config.maxIterations := by
    obtain ⟨-, w, rfl⟩ := h
    rfl
  obtain ⟨hhistory, hend⟩ := h.runLoop hc x.cluster.config.maxIterations []
  unfold Explorer.run
  dsimp only
  rw [hlimit, hhistory]
  refine ⟨?_, hend⟩
  obtain ⟨-, w, hsame⟩ := hend
  rw [hsame]

theorem Alike.replay (hc : c.registry.Deterministic) (h : Alike c x y) (path : List TaskId) :
    (x.replay path).1 = (y.replay path).1 ∧ Alike c (x.replay path).2 (y.replay path).2 := by
  obtain ⟨hcluster, w, rfl⟩ := h
  subst hcluster
  rw [replay_eq, replay_eq]
  refine ⟨?_, rfl, _, rfl⟩
  rcases (Iteration.replay_alike hc x.verifier path x.tree x.tree x.world w).1 with
    hsame | ⟨id, -, executed, trace, hx, hy⟩
  · exact hsame
  · exact hx.trans hy.symm

/-- What a search returns does not depend on what its last iteration left. -/
theorem Alike.answers (hc : c.registry.Deterministic) : ∀ (calls : List Call)
    {x y : Explorer F σ μ}, Alike c x y → x.answers calls = y.answers calls
  | [], _, _, _ => rfl
  | .run :: calls, x, y, h => by
    obtain ⟨hreport, hnext⟩ := h.run hc
    show Sum.inl x.run.1 :: x.run.2.answers calls = Sum.inl y.run.1 :: y.run.2.answers calls
    rw [hreport, Alike.answers hc calls hnext]
  | .replay path :: calls, x, y, h => by
    obtain ⟨houtcome, hnext⟩ := h.replay hc path
    show Sum.inr (x.replay path).1 :: (x.replay path).2.answers calls =
      Sum.inr (y.replay path).1 :: (y.replay path).2.answers calls
    rw [houtcome, Alike.answers hc calls hnext]

/-- **Iterations are isolated.** Whatever runs and replays went before on a search, and however they
ended, a replay returns what it returns on a new search and leaves the same events. Only where a
task of the path is not pending do the two failures differ, in the tree that each shows: the one of
its search. The replay leaves the tree, the source and the switches as they are, and all later
calls return what they would have returned without it. -/
theorem replay_isolated (hc : c.registry.Deterministic) (hx : Reachable c verifier x)
    (hy : Explorer.new c verifier = .ok y) (path : List TaskId) :
    ((x.replay path).1 = (y.replay path).1 ∨ ∃ id ∈ path, ∃ executed trace,
      (x.replay path).1 =
        .failed ⟨.unexpected (Abort.unknownTask id).message (some x.tree.render), executed, trace⟩ ∧
      (y.replay path).1 =
        .failed ⟨.unexpected (Abort.unknownTask id).message (some y.tree.render), executed,
          trace⟩) ∧
    (x.replay path).2.lastTrace = (y.replay path).2.lastTrace ∧
    (x.replay path).2.tree = x.tree ∧ (x.replay path).2.source = x.source ∧
    (x.replay path).2.switches = x.switches ∧
    ∀ calls, (x.replay path).2.answers calls = x.answers calls := by
  have hcharted := hx.charted hc
  obtain ⟨houtcome, htrace⟩ :=
    Iteration.replay_alike hc verifier path x.tree y.tree x.world y.world
  rw [hcharted.replay_eq, (charted_new hy).replay_eq]
  refine ⟨houtcome, htrace, rfl, rfl, rfl, fun calls => ?_⟩
  exact Alike.answers hc calls ⟨hcharted.cluster, x.world, rfl⟩

/-- After a run that was cut short by a panic. -/
theorem replay_isolated_raising :
    (fresh Broadcast.raising .acceptAll : Explorer Float _ _).run.1.isSuccess = false ∧
      ((fresh Broadcast.raising .acceptAll : Explorer Float _ _).run.2.replay [⟨1⟩]).2.lastTrace =
        ((fresh Broadcast.raising .acceptAll : Explorer Float _ _).replay [⟨1⟩]).2.lastTrace ∧
      ∀ calls, ((fresh Broadcast.raising .acceptAll : Explorer Float _ _).run.2.replay
          [⟨1⟩]).2.answers calls =
        (fresh Broadcast.raising .acceptAll : Explorer Float _ _).run.2.answers calls := by
  have hc : Broadcast.raising.registry.Deterministic := Broadcast.deterministic_pair
  have hnew : Explorer.new Broadcast.raising .acceptAll =
      .ok (fresh Broadcast.raising .acceptAll : Explorer Float _ _) := new_eq_fresh rfl
  obtain ⟨-, htrace, -, -, -, hanswers⟩ := replay_isolated hc (Reachable.new hnew).run hnew [⟨1⟩]
  exact ⟨by decide +kernel, htrace, hanswers⟩

end Explorer

/-- The text of a tree begins with what is eligible at the root. -/
theorem Tree.render_eq [Share F] {t : Tree F} {x : TreeNode F} (hx : t.nodes[Tree.root]? = some x)
    (hroot : x.task = none) : ∃ rest, t.render = "root next=" ++ (x.eligibleText ++ rest) := by
  obtain ⟨n, hn⟩ : ∃ n, t.size = n + 1 := Nat.exists_eq_add_one.mpr (by
    have hlt := Tree.lt_size_of_getElem? hx
    exact Nat.lt_of_le_of_lt (Nat.zero_le _) hlt)
  have hlabel : x.label = "root" := by
    unfold TreeNode.label
    rw [hroot]
  unfold Tree.render
  rw [hn]
  unfold Tree.renderFrom
  rw [hx]
  dsimp only
  rw [String.join_cons, TreeNode.line, hlabel]
  refine ⟨" unexplored=" ++ Share.text x.unexplored ++ (if x.explored then " done" else "") ++ "\n" ++
    String.join ((x.children.map (·.2)).flatMap (t.renderFrom n 1)), ?_⟩
  simp [String.append_assoc]

/-- A tree whose root has been visited looks different from one whose root has not. -/
theorem Tree.render_ne [Share F] {t t' : Tree F} {x x' : TreeNode F}
    (hx : t.nodes[Tree.root]? = some x) (hroot : x.task = none) (hvisited : x.eligible.isSome)
    (hx' : t'.nodes[Tree.root]? = some x') (hroot' : x'.task = none) (hnew : x'.eligible = none) :
    t.render ≠ t'.render := by
  obtain ⟨l, hl⟩ := Option.isSome_iff_exists.mp hvisited
  obtain ⟨rest, hrender⟩ := Tree.render_eq hx hroot
  obtain ⟨rest', hrender'⟩ := Tree.render_eq hx' hroot'
  intro heq
  rw [hrender, hrender', TreeNode.eligibleText, TreeNode.eligibleText, hl, hnew] at heq
  have hchars := congrArg String.toList heq
  simp at hchars

/-- A replay whose first task is not pending shows the tree. -/
theorem Explorer.Charted.replay_unknown [Share F] {x : Explorer F σ μ} (h : Charted c verifier x)
    (hc : c.registry.Deterministic) {id : TaskId} (path : List TaskId)
    (htime : c.config.taskBudget ≠ 0)
    (hget : ((World.new c).reset c).pending.get? id = none) : ∃ trace,
    (x.replay (id :: path)).1 = .failed ⟨.unexpected (Abort.unknownTask id).message
      (some x.tree.render), [], trace⟩ := by
  obtain ⟨rfl, rfl, -⟩ := h
  have hpending : (x.world.reset x.cluster).pending =
      ((World.new x.cluster).reset x.cluster).pending := by
    have hforget := World.forget_reset hc x.world (World.new x.cluster)
    show (x.world.reset x.cluster).forget.pending = _
    rw [hforget]
    rfl
  have htake : (x.world.reset x.cluster).pending.take id = none := by
    simp [Pending.take, hpending, hget]
  have hexecute : Walker.execute x.cluster id (Iteration.start x.cluster x.tree x.world) =
      (.error (.unknownTask id), Iteration.start x.cluster x.tree x.world) := by
    rw [Walker.execute_apply]
    exact (if_neg htime).trans (by rw [Iteration.start, htake])
  have hreplay : Walker.replay x.cluster (id :: path) (Iteration.start x.cluster x.tree x.world) =
      (.error (.unknownTask id), Iteration.start x.cluster x.tree x.world) := by
    unfold Walker.replay
    rw [List.forM_eq_forM, List.forM_cons, Attempt.bind_apply, Attempt.bind_apply,
      Attempt.bind_apply, hexecute]
  refine ⟨(x.world.reset x.cluster).events, ?_⟩
  rw [Explorer.replay_eq]
  unfold Iteration.replay Iteration.walk
  rw [hreplay]
  rfl

/-- A replay of a task that is not pending, after a run and on a new search: the failures differ,
for after the run the root of the tree has been visited. -/
theorem Explorer.replay_shows_tree :
    ((fresh Broadcast.pair .rejectAll : Explorer Float _ _).run.2.replay [⟨7⟩]).1 ≠
      ((fresh Broadcast.pair .rejectAll : Explorer Float _ _).replay [⟨7⟩]).1 := by
  have hc := Broadcast.deterministic_pair
  have hfresh : Reachable Broadcast.pair .rejectAll
      (fresh Broadcast.pair .rejectAll : Explorer Float _ _) := .new (new_eq_fresh rfl)
  have htime : Broadcast.pair.config.taskBudget ≠ 0 := by decide +kernel
  have hget : ((World.new Broadcast.pair).reset Broadcast.pair).pending.get? ⟨7⟩ = none := by
    decide +kernel
  have hroot : (fresh Broadcast.pair .rejectAll : Explorer Float _ _).run.2.tree.nodes[
      Tree.root]?.map (fun x => (x.task, x.eligible.isSome)) = some (none, true) := by
    decide +kernel
  obtain ⟨x, hx, hvisited⟩ := Option.map_eq_some_iff.mp hroot
  obtain ⟨htask, hsome⟩ := Prod.mk.inj hvisited
  obtain ⟨trace, hafter⟩ := (hfresh.run.charted hc).replay_unknown hc [] htime hget
  obtain ⟨trace', hbefore⟩ := (hfresh.charted hc).replay_unknown hc [] htime hget
  rw [hafter, hbefore]
  intro heq
  have hkind := congrArg Failure.kind (Outcome.failed.inj heq)
  have hrender := Option.some.inj (FailureCause.unexpected.inj hkind).2
  exact Tree.render_ne hx htask hsome rfl rfl rfl hrender

end Interleave
