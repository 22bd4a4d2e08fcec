/-
# What a fully explored search certifies

When a run ends without a failure and with the root marked as explored, every
walk of eligible tasks was judged: none of its tasks fails, and where nothing is
eligible any more, some iteration of the run executed exactly that walk, drained
what was pending, and was accepted by the nodes and by the verifier
(`Explorer.exists_iteration_of_fullyExplored`).

The marks are deserved throughout the run (`Explorer.sound_runLoop`), a node being
certified by an iteration that executed the tasks of its spot. From a marked root a
walk can be followed down the tree, from marked node to marked node
(`Chart.exists_explored`).
-/
import Interleave.Proofs.Marks
import Interleave.Proofs.Search

namespace Interleave

variable {F σ μ : Type} {c : Cluster σ μ} {verifier : Verifier} {spot : Nat → Spot σ μ}

/-! ### Following a walk down the tree -/

namespace Chart

variable {t : Tree F} {certified : Nat → Prop}

/-- What is eligible at a marked node leads to a marked node. -/
theorem exists_child (h : Chart c t spot) (hmarks : Marks certified t) {n : Nat}
    (hn : t.isExplored n = true) {id : TaskId} (hid : id ∈ ((spot n).choices c).map (·.1)) :
    ∃ m y w, t.isExplored m = true ∧ Step.advance c id (spot n).world = (.ok y, w) ∧
      spot m = (spot n).next y w := by
  obtain ⟨x, hx, hmarked⟩ := Tree.isExplored_iff.mp hn
  obtain ⟨hvisited, hbehind, -⟩ := hmarks n x hx hmarked
  obtain ⟨l, hl⟩ := Option.isSome_iff_exists.mp hvisited
  have hids : id ∈ x.eligibleIds := by
    rw [TreeNode.eligibleIds, hl, Option.getD_some, h.visited n x l hx hl]
    exact hid
  obtain ⟨m, hm, hexplored⟩ := Tree.exploredBehind_iff.mp (hbehind id hids)
  obtain ⟨-, y, w, hadvance, hspot⟩ := h.child n x id m hx hm
  exact ⟨m, y, w, hexplored, hadvance, hspot⟩

/-- **A walk of eligible tasks from a marked node leads to a marked node.** -/
theorem exists_explored (h : Chart c t spot) (hmarks : Marks certified t) {ts : List (Task μ)}
    {w : World σ μ} : ∀ {n : Nat}, t.isExplored n = true →
      Schedule c (.eligible c.config.order) (spot n).finished (spot n).world ts w →
      ∃ m, t.isExplored m = true ∧ spot m = ⟨(spot n).tasks ++ ts, w⟩ := by
  induction ts with
  | nil =>
    intro n hn hwalk
    cases hwalk
    exact ⟨n, hn, by rw [List.append_nil]⟩
  | cons y ts ih =>
    intro n hn hwalk
    obtain _ | ⟨allowed, done, rest⟩ := hwalk
    obtain ⟨m, y', w', hm, hadvance, hspot⟩ := h.exists_child hmarks hn allowed
    have heq : (Except.ok y, _) = (Except.ok y', w') := done.symm.trans hadvance
    cases heq
    have hrest : Schedule c (.eligible c.config.order) (spot m).finished (spot m).world ts w := by
      rw [hspot, Spot.finished_next]
      exact rest
    obtain ⟨m', hm', hspot'⟩ := ih hm hrest
    refine ⟨m', hm', ?_⟩
    rw [hspot', hspot, Spot.next, List.append_assoc]
    rfl

/-- Where nothing is eligible a marked node is certified. -/
theorem certified_of_choices (h : Chart c t spot) (hmarks : Marks certified t) {n : Nat}
    (hn : t.isExplored n = true) (hdry : (spot n).choices c = []) : certified n := by
  obtain ⟨x, hx, hmarked⟩ := Tree.isExplored_iff.mp hn
  obtain ⟨hvisited, -, hleaf⟩ := hmarks n x hx hmarked
  obtain ⟨l, hl⟩ := Option.isSome_iff_exists.mp hvisited
  refine hleaf ?_
  rw [TreeNode.eligibleIds, hl, Option.getD_some, h.visited n x l hx hl, hdry]
  rfl

end Chart

/-! ### Certificates -/

variable [Share F]

/-- Some iteration executed the tasks of the spot, came to its end and did not fail. -/
def Certified (c : Cluster σ μ) (verifier : Verifier) (history : List Iteration) (s : Spot σ μ) :
    Prop :=
  ∃ it ∈ history, it.outcome.isFailure = false ∧ ∃ w, it.Records c verifier s w

namespace Explorer

/-- A search whose marks are deserved, given the iterations so far. -/
def Sound (c : Cluster σ μ) (verifier : Verifier) (history : List Iteration) (x : Explorer F σ μ) :
    Prop :=
  Charted c verifier x ∧ ∃ spot, Chart c x.tree spot ∧
    Marks (fun n => Certified c verifier history (spot n)) x.tree

/-- An iteration that did not fail came to its end. -/
theorem ok_of_not_isFailure {r : Except Abort Bool × Walk F σ μ × Walk F σ μ}
    (h : (Iteration.close c verifier true r).1.outcome.isFailure = false) : ∃ b, r.1 = .ok b := by
  rcases r with ⟨e | b, mid, last⟩
  · cases e <;> cases h
  · exact ⟨b, rfl⟩

/-- An iteration that does not fail leaves all marks deserved. -/
theorem Sound.iterate (hc : c.registry.Deterministic) {history : List Iteration}
    {x : Explorer F σ μ} (h : Sound c verifier history x)
    (hok : x.iterate.1.outcome.isFailure = false) :
    Sound c verifier (x.iterate.1 :: history) x.iterate.2 := by
  obtain ⟨hcharted, spot, hchart, hmarks⟩ := h
  refine ⟨hcharted.iterate hc, ?_⟩
  obtain ⟨spot', hextends, hwalks⟩ := walks_course hc hcharted.cluster hchart
  rw [hcharted.iterate_fst] at hok ⊢
  obtain ⟨b, hb⟩ := ok_of_not_isFailure hok
  obtain ⟨n, w, hn, -, hrecords, -, htrail⟩ := hwalks.records hc hb verifier
  refine ⟨spot', ?_, ?_⟩
  · rw [tree_iterate]
    exact hwalks.chart.recountUp
  -- earlier certificates stand, and this iteration certifies the node it ended at
  have hbefore : Marks (fun n => Certified c verifier
      ((Iteration.close c verifier true x.course).1 :: history) (spot' n)) x.tree := by
    refine hmarks.mono fun m hm hcertified => ?_
    obtain ⟨it, hit, hcompleted⟩ := hcertified
    rw [hextends m hm]
    exact ⟨it, List.mem_cons_of_mem _ hit, hcompleted⟩
  have hcourse : Marks (fun n => Certified c verifier
      ((Iteration.close c verifier true x.course).1 :: history) (spot' n)) x.course.2.2.tree :=
    Iteration.keeps_walk (Walker.keeps_explore (fun _ n _ _ ht => ht.observe n _ _)
      (fun _ n id ht => ht.branch n id) _) hbefore
  rw [tree_iterate]
  refine hcourse.recountUp fun m hm y hy hnil => ?_
  have hdry := (hwalks.chart.visited m y [] hy hnil).symm
  obtain rfl := (htrail m (List.mem_reverse.mp hm)).2.resolve_right (absurd hdry)
  exact ⟨_, List.mem_cons_self, hok, w, hrecords⟩

/-- All marks stay deserved as long as no iteration fails. -/
theorem sound_runLoop (hc : c.registry.Deterministic) : ∀ (fuel : Nat) {history : List Iteration}
    {x : Explorer F σ μ}, Sound c verifier history x →
      (∃ it rest, (runLoop fuel history x).1 = it :: rest ∧ it.outcome.isFailure = true) ∨
        Sound c verifier (runLoop fuel history x).1 (runLoop fuel history x).2
  | 0, _, _, h => .inr h
  | fuel + 1, history, x, h => by
    unfold runLoop
    split
    · exact .inr h
    dsimp only
    split
    · rename_i hfail
      exact .inl ⟨_, _, rfl, hfail⟩
    · rename_i hok
      exact sound_runLoop hc fuel (h.iterate hc (Bool.eq_false_iff.mpr hok))

theorem sound_new {x : Explorer F σ μ} (h : Explorer.new c verifier = .ok x) :
    Sound c verifier [] x := by
  obtain ⟨rfl, -⟩ := eq_fresh_of_new h
  refine ⟨charted_fresh, fun _ => Spot.start c, .empty c, fun n y hy hmarked => ?_⟩
  cases n with
  | zero => cases hy; cases hmarked
  | succ n => cases hy

/-- An accepted verdict. -/
theorem judge_of_not_isFailure {executed : List TaskId} {w : World σ μ}
    (h : (Iteration.judge c verifier executed w).1.isFailure = false) : w.invalid? c = none ∧
      verifier c.scenario w.results = true ∧
      (Iteration.judge c verifier executed w).1 = .completed (w.summary c) := by
  unfold Iteration.judge at h ⊢
  cases hinvalid : w.invalid? c with
  | some e =>
    rw [hinvalid] at h
    cases h
  | none =>
    rw [hinvalid] at h
    dsimp only at h ⊢
    split at h
    · rename_i hverifier
      exact ⟨rfl, hverifier, if_pos hverifier⟩
    · cases h

/-- The marks of a new search are deserved after a run without a failure. -/
theorem sound_run (hc : c.registry.Deterministic) {x : Explorer F σ μ}
    (hx : Explorer.new c verifier = .ok x) (hok : x.run.1.failure? = none) :
    Sound c verifier x.run.1.history.reverse x.run.2 := by
  have hhistory : x.run.1.history.reverse = (runLoop x.cluster.config.maxIterations [] x).1 :=
    List.reverse_reverse _
  rw [hhistory]
  refine (sound_runLoop hc x.cluster.config.maxIterations (sound_new hx)).resolve_left ?_
  rintro ⟨it, rest, hlast, hfail⟩
  -- the failed iteration would be the last one
  have hfailure : x.run.1.failure? = it.outcome.failure? := by
    rw [SearchReport.failure?, List.getLast?_eq_head?_reverse, hhistory, hlast]
    rfl
  rw [hok] at hfailure
  cases houtcome : it.outcome with
  | completed results =>
    rw [houtcome] at hfail
    cases hfail
  | failed f =>
    rw [houtcome] at hfailure
    cases hfailure

/-- **What a fully explored search certifies.** Let a run of a new search end without a failure and
with everything explored, and let a walk of eligible tasks lead from the start of an iteration to
state `w`. Then no task that is eligible next fails. If there is none, then some iteration of the run
executed exactly this walk and drained what was pending, the end of the scenario led to a state that
all live nodes accept, and the verifier accepted the results. -/
theorem exists_iteration_of_fullyExplored (hc : c.registry.Deterministic) {x : Explorer F σ μ}
    (hx : Explorer.new c verifier = .ok x) (hok : x.run.1.failure? = none)
    (hfull : x.run.1.fullyExplored = true) {w₀ w : World σ μ} {ts : List (Task μ)}
    (hwalk : Schedule c (.eligible c.config.order) none (w₀.reset c) ts w) :
    (∀ id ∈ ((Spot.mk ts w).choices c).map (·.1), ∃ t w', Step.advance c id w = (.ok t, w')) ∧
    ((Spot.mk ts w).choices c = [] → ∃ it ∈ x.run.1.history, ∃ us w₁ vs w₂,
      Drains c w us w₁ ∧ Closes c w₁ vs w₂ ∧ it.executed = (ts ++ us).map Task.id ∧
      it.interrupted = (!w.pending.isEmpty) ∧ w₂.invalid? c = none ∧
      verifier c.scenario w₂.results = true ∧ it.outcome = .completed (w₂.summary c)) := by
  obtain ⟨-, spot, hchart, hmarks⟩ := sound_run hc hx hok
  have hwalk' : Schedule c (.eligible c.config.order) (spot Tree.root).finished
      (spot Tree.root).world ts w.forget := by
    rw [hchart.start, Spot.start, ← World.forget_reset hc w₀]
    exact hwalk.forget hc
  obtain ⟨m, hm, hspot⟩ := hchart.exists_explored hmarks hfull hwalk'
  have hspot' : spot m = ⟨ts, w.forget⟩ := by
    rw [hspot, hchart.start]
    rfl
  have hchoices : (spot m).choices c = (Spot.mk ts w).choices c := by
    rw [hspot']
    rfl
  refine ⟨fun id hid => ?_, fun hdry => ?_⟩
  · obtain ⟨-, y, w', -, hadvance, -⟩ := hchart.exists_child hmarks hm (hchoices ▸ hid)
    rw [hspot'] at hadvance
    obtain ⟨v', hv', -⟩ := (Step.forgetful_advance hc id).transport hadvance (v := w) rfl
    exact ⟨y, v', hv'⟩
  · obtain ⟨it, hit, hcompleted, w₂, hrecords⟩ :=
      hchart.certified_of_choices hmarks hm (hchoices.trans hdry)
    rw [hspot'] at hrecords
    obtain ⟨us, w₁, vs, hdrains, hcloses, hexecuted, -⟩ := hrecords.course
    obtain ⟨v₁, hdrains', hv₁⟩ := hdrains.transport hc (v := w) rfl
    obtain ⟨v₂, hcloses', hv₂⟩ := hcloses.transport hc hv₁
    have hverdict := hrecords.verdict
    rw [← Iteration.judge_congr hv₂] at hverdict
    have houtcome : (Iteration.judge c verifier it.executed v₂).1 = it.outcome :=
      congrArg Prod.fst hverdict
    obtain ⟨hinvalid, hverifier, hjudge⟩ := judge_of_not_isFailure (houtcome ▸ hcompleted)
    exact ⟨it, List.mem_reverse.mp hit, us, v₁, vs, v₂, hdrains', hcloses', hexecuted,
      hrecords.interrupted, hinvalid, hverifier, houtcome.symm.trans hjudge⟩

end Explorer

/-- Two peers with nothing to do but to begin. -/
def Broadcast.idle : Cluster Broadcast.Peer String := { Broadcast.pair with scenario := ⟨[]⟩ }

/-- Once the second peer has begun nothing is eligible, and the first one is drained. -/
theorem Explorer.exists_iteration_of_fullyExplored_idle :
    ∃ it ∈ (fresh Broadcast.idle .acceptAll : Explorer Rat _ _).run.1.history,
      it.executed.head? = some ⟨1⟩ ∧ it.interrupted = true ∧ it.outcome.isFailure = false := by
  have hc : Broadcast.idle.registry.Deterministic := Broadcast.deterministic_pair
  have hnew : Explorer.new Broadcast.idle .acceptAll =
      .ok (fresh Broadcast.idle .acceptAll : Explorer Rat _ _) := new_eq_fresh rfl
  have hok : (fresh Broadcast.idle .acceptAll : Explorer Rat _ _).run.1.failure? = none := by
    decide +kernel
  have hfull : (fresh Broadcast.idle .acceptAll : Explorer Rat _ _).run.1.fullyExplored = true := by
    decide +kernel
  have hwalk : Schedule Broadcast.idle (.eligible .fifo) none
      ((World.new Broadcast.idle).reset Broadcast.idle) [World.firstTask 2 1] _ :=
    .cons (by unfold Rule.eligible; decide) rfl (.nil _ _)
  obtain ⟨-, hleaf⟩ := exists_iteration_of_fullyExplored hc hnew hok hfull hwalk
  obtain ⟨it, hit, us, _, _, _, -, -, hexecuted, hinterrupted, -, -, houtcome⟩ := hleaf rfl
  exact ⟨it, hit, by rw [hexecuted]; rfl, hinterrupted, by rw [houtcome]; rfl⟩

end Interleave
