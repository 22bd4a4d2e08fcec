/-
# How an iteration goes

An exploring iteration executes the tasks of its path, then canonical choices,
drains what is left once nothing is eligible, tells the nodes that the scenario
is over and drains again. It may be cut short anywhere: by a task that fails, by
the time, by the tree. `Iteration.Conduct` says which tasks it began, from which
state and by which rule, however it ended.

Nothing is asked of the nodes here. Where the tree is visited, the eligible tasks
are recorded or compared with those recorded before, so behind a visit that went
well they are the ones of the state at hand, even if nodes are made in ever other
ways and the next visit fails for it.

Key definitions: `Rule.canonical`, `Tries`, `Course`, `Iteration.Conduct`, `Tree.Legal`, `Sited`.
Key theorems: `Tree.legal_plan`, `Walker.exploreLoop_course`, `Iteration.conduct_run`,
`Explorer.Reachable.conduct`, `Explorer.conduct_first`, `Iteration.Conduct.strengthen`.
-/
import Interleave.Proofs.CutShort

namespace Interleave

variable {F σ μ : Type} {c : Cluster σ μ}

/-- The task is the canonical choice among the eligible ones. -/
def Rule.canonical (order : DeliveryOrder) : Rule := fun finished pending t =>
  (TreeNode.canonical (Tree.eligible order finished pending)).map (·.1) = some t.id

theorem Rule.canonical.eligible {order : DeliveryOrder} {finished : Option TaskView}
    {pending : List TaskView} {t : TaskView} (h : Rule.canonical order finished pending t) :
    Rule.eligible order finished pending t := by
  obtain ⟨a, ha, hid⟩ := Option.map_eq_some_iff.mp h
  show t.id ∈ _
  rw [← hid]
  exact List.mem_map_of_mem (TreeNode.mem_of_canonical ha)

/-! ### Tasks begun -/

/-- Tasks `ts` are executed as the rule allows, and perhaps one more, which fails. -/
def Tries (c : Cluster σ μ) (rule : Rule) (finished : Option TaskView) (w : World σ μ)
    (ts : List (Task μ)) (w' : World σ μ) : Prop :=
  Schedule c rule finished w ts w' ∨ ∃ t e, Falters c rule finished w ts t e w'

/-- The tasks of an exploring iteration, and whether they came to their end: those chosen while
something was eligible, and after them those swept up. -/
inductive Course (c : Cluster σ μ) (choice sweep : Rule) (finished : Option TaskView)
    (w : World σ μ) : List (Task μ) → World σ μ → Bool → Prop
  /-- Cut short among the tasks that are chosen. -/
  | broken {ts : List (Task μ)} {w' : World σ μ} (chosen : Tries c choice finished w ts w') :
      Course c choice sweep finished w ts w' false
  /-- Cut short among the tasks that are swept up. -/
  | swept {ts us : List (Task μ)} {w₁ w' : World σ μ} (chosen : Schedule c choice finished w ts w₁)
      (dry : Tree.eligible c.config.order (finishedBy finished ts) w₁.pending.views = [])
      (swept : Tries c sweep none w₁ us w') : Course c choice sweep finished w (ts ++ us) w' false
  | whole {ts us : List (Task μ)} {w₁ w' : World σ μ} (chosen : Schedule c choice finished w ts w₁)
      (dry : Tree.eligible c.config.order (finishedBy finished ts) w₁.pending.views = [])
      (swept : Schedule c sweep none w₁ us w') (empty : w'.pending.isEmpty = true) :
      Course c choice sweep finished w (ts ++ us) w' true

/-- How an exploring iteration from state `w` went: its tasks came to their end or not, and if they
did, the nodes were told and, if none failed, what that brought about was swept up. -/
inductive Iteration.Conduct (c : Cluster σ μ) (choice sweep : Rule) (w : World σ μ)
    (it : Iteration) : Prop
  | cut {ts : List (Task μ)} {w' : World σ μ} (tasks : Course c choice sweep none w ts w' false)
      (executed : it.executed = ts.map Task.id) (afterwards : it.afterwards = [])
      (trace : it.trace = w'.events ∨ it.trace = [])
  | told {ts : List (Task μ)} {e : Abort} {w₁ w' : World σ μ}
      (tasks : Course c choice sweep none w ts w₁ true)
      (told : Walker.tellAll c ((List.range w₁.size).map NodeId.ofIndex) w₁ = (some e, w'))
      (executed : it.executed = ts.map Task.id) (afterwards : it.afterwards = [])
      (trace : it.trace = w'.events ∨ it.trace = [])
  | ended {ts us : List (Task μ)} {w₁ w₂ w' : World σ μ}
      (tasks : Course c choice sweep none w ts w₁ true)
      (told : Walker.tellAll c ((List.range w₁.size).map NodeId.ofIndex) w₁ = (none, w₂))
      (swept : Tries c sweep none w₂ us w')
      (executed : it.executed = ts.map Task.id) (afterwards : it.afterwards = us.map Task.id)
      (trace : it.trace = w'.events ∨ it.trace = [])

theorem Tries.cons {rule : Rule} {finished : Option TaskView} {w w₁ w' : World σ μ} {t : Task μ}
    {ts : List (Task μ)} (allowed : rule finished w.pending.views t.view)
    (done : Step.advance c t.id w = (.ok t, w₁)) (rest : Tries c rule (some t.view) w₁ ts w') :
    Tries c rule finished w (t :: ts) w' := by
  rcases rest with rest | ⟨u, e, rest⟩
  · exact .inl (.cons allowed done rest)
  · exact .inr ⟨u, e, .cons allowed done rest⟩

/-- One more task is chosen first. -/
theorem Course.cons {choice sweep : Rule} {finished : Option TaskView} {w w₁ w' : World σ μ}
    {t : Task μ} {ts : List (Task μ)} {b : Bool} (allowed : choice finished w.pending.views t.view)
    (done : Step.advance c t.id w = (.ok t, w₁))
    (rest : Course c choice sweep (some t.view) w₁ ts w' b) :
    Course c choice sweep finished w (t :: ts) w' b := by
  cases rest with
  | broken chosen => exact .broken (chosen.cons allowed done)
  | swept chosen dry swept => exact .swept (.cons allowed done chosen) dry swept
  | whole chosen dry swept empty => exact .whole (.cons allowed done chosen) dry swept empty

/-! ### What the rules say in states with an invariant -/

section

variable {choice choice' sweep sweep' rule rule' : Rule} {finished : Option TaskView}
  {w w' : World σ μ} {ts : List (Task μ)} {I : World σ μ → Prop}

/-- A rule can be replaced by another one in states that an invariant holds in, and what is executed
by the new rule keeps the invariant. -/
structure Upgrades (c : Cluster σ μ) (I : World σ μ → Prop) (rule rule' : Rule) : Prop where
  allows : ∀ {finished w t}, I w → w.pending.get? t.id = some t →
    rule finished w.pending.views t.view → rule' finished w.pending.views t.view
  keeps : ∀ {finished w t w'}, I w → rule' finished w.pending.views t.view →
    Step.advance c t.id w = (.ok t, w') → I w'

theorem Schedule.strengthen (hrule : Upgrades c I rule rule') (h : Schedule c rule finished w ts w')
    (hw : I w) : Schedule c rule' finished w ts w' ∧ I w' := by
  induction h with
  | nil => exact ⟨.nil _ _, hw⟩
  | cons allowed done rest ih =>
    obtain ⟨pending, htake, -⟩ := Step.advance_ok_iff.mp done
    have hallowed := hrule.allows hw (Pending.take_eq_some_iff.mp htake).1 allowed
    obtain ⟨hrest, hlast⟩ := ih (hrule.keeps hw hallowed done)
    exact ⟨.cons hallowed done hrest, hlast⟩

theorem Tries.strengthen (hrule : Upgrades c I rule rule') (h : Tries c rule finished w ts w')
    (hw : I w) : Tries c rule' finished w ts w' := by
  rcases h with h | ⟨t, e, w₁, hschedule, hfails⟩
  · exact .inl (h.strengthen hrule hw).1
  · obtain ⟨hschedule', hw₁⟩ := hschedule.strengthen hrule hw
    exact .inr ⟨t, e, w₁, hschedule', hfails.pending,
      hrule.allows hw₁ hfails.pending hfails.allowed, hfails.run⟩

theorem Course.strengthen {b : Bool} (hchoice : Upgrades c I choice choice')
    (hsweep : Upgrades c I sweep sweep') (h : Course c choice sweep finished w ts w' b) (hw : I w) :
    Course c choice' sweep' finished w ts w' b ∧ (b = true → I w') := by
  cases h with
  | broken chosen => exact ⟨.broken (chosen.strengthen hchoice hw), nofun⟩
  | swept chosen dry swept =>
    obtain ⟨hchosen, hw₁⟩ := chosen.strengthen hchoice hw
    exact ⟨.swept hchosen dry (swept.strengthen hsweep hw₁), nofun⟩
  | whole chosen dry swept empty =>
    obtain ⟨hchosen, hw₁⟩ := chosen.strengthen hchoice hw
    obtain ⟨hswept, hw'⟩ := swept.strengthen hsweep hw₁
    exact ⟨.whole hchosen dry hswept empty, fun _ => hw'⟩

/-- The rules of an iteration can be replaced by ones that hold in the states it comes through. -/
theorem Iteration.Conduct.strengthen {it : Iteration} (hchoice : Upgrades c I choice choice')
    (hsweep : Upgrades c I sweep sweep')
    (htell : ∀ {v w w'}, I w → Step.farewell c v w = (.ok (), w') → I w')
    (h : it.Conduct c choice sweep w) (hw : I w) : it.Conduct c choice' sweep' w := by
  cases h with
  | cut tasks executed afterwards trace =>
    exact .cut (tasks.strengthen hchoice hsweep hw).1 executed afterwards trace
  | told tasks told executed afterwards trace =>
    exact .told (tasks.strengthen hchoice hsweep hw).1 told executed afterwards trace
  | ended tasks told swept executed afterwards trace =>
    obtain ⟨htasks, hmid⟩ := tasks.strengthen hchoice hsweep hw
    have hlast := Walker.keeps_of_tellAll htell told (hmid rfl)
    exact .ended htasks told (swept.strengthen hsweep hlast) executed afterwards trace

end

/-! ### Draining -/

namespace Walker

open Attempt

/-- However a drain goes, it takes tasks by ascending number, and leaves nothing if it ends. -/
theorem drain_cases {r : Except Abort Unit} {k k' : Walk F σ μ} (h : drain c k = (r, k')) :
    ∃ ts, k'.executed = k.executed ++ ts.map Task.id ∧ k'.tree = k.tree ∧
      ((r = .ok () ∧ Schedule c .lowest none k.world ts k'.world ∧
          k'.world.pending.isEmpty = true) ∨
        ∃ e, r = .error e ∧ Tries c .lowest none k.world ts k'.world) := by
  cases r with
  | ok u =>
    obtain ⟨ts, w, hdrains, -, rfl⟩ := drain_ok_iff.mp h
    exact ⟨ts, rfl, rfl, .inl ⟨rfl, hdrains.schedule, hdrains.empty⟩⟩
  | error e =>
    have hloop : drainLoop c k.time k = (.error e, k') := h
    rcases drainLoop_error_cases hloop with ⟨-, ts, w, hexceeds, rfl⟩ | ⟨ts, t, w, hfalters, -, rfl⟩
    · exact ⟨ts, rfl, rfl, .inr ⟨e, rfl, .inl hexceeds.schedule⟩⟩
    · exact ⟨ts, rfl, rfl, .inr ⟨e, rfl, .inr ⟨t, e, hfalters⟩⟩⟩

end Walker

/-! ### Paths in the tree -/

namespace Tree

variable {t t' : Tree F} {n : Nat} {finished : Option TaskView} {pending : List TaskView}

/-- Every task of the path is recorded as eligible at the node that those before it lead to from
node `n`. Only the last task may lead to a node that is not there yet. -/
def Legal (t : Tree F) : Nat → List TaskId → Prop
  | _, [] => True
  | n, id :: path => ∃ x, t.nodes[n]? = some x ∧ id ∈ x.eligibleIds ∧
    match x.child? id with
    | some m => t.Legal m path
    | none => path = []

/-- A visit that goes well leaves at the node what is eligible in the state at hand. A path that goes
on from there was recorded before, so the visit has not changed the tree. -/
theorem observe_ok (h : t.observe n finished pending = (.ok (), t')) : t'.order = t.order ∧
    (∃ x, t'.nodes[n]? = some x ∧ x.eligible = some (eligible t.order finished pending)) ∧
    ∀ path, t.Legal n path → t'.Legal n path := by
  unfold observe at h
  cases hx : t.nodes[n]? with
  | none =>
    rw [hx] at h
    cases h
  | some x =>
    rw [hx] at h
    cases heligible : x.eligible with
    | none =>
      simp only [heligible] at h
      cases h
      refine ⟨rfl, ⟨{ x with eligible := some (eligible t.order finished pending) }, ?_, rfl⟩, ?_⟩
      · simp [Array.getElem?_modify, hx]
      · intro path hpath
        cases path with
        | nil => trivial
        | cons id path =>
          obtain ⟨y, hy, hid, -⟩ := hpath
          cases hx.symm.trans hy
          simp [TreeNode.eligibleIds, heligible] at hid
    | some known =>
      simp only [heligible] at h
      split at h
      · rename_i hknown
        cases h
        exact ⟨rfl, ⟨x, hx, by rw [heligible, hknown]⟩, fun _ hpath => hpath⟩
      · cases h

theorem observe_error {e : TreeError} (h : t.observe n finished pending = (.error e, t')) :
    t' = t := by
  unfold observe at h
  cases hx : t.nodes[n]? with
  | none =>
    rw [hx] at h
    cases h
    rfl
  | some x =>
    rw [hx] at h
    cases heligible : x.eligible with
    | none =>
      simp only [heligible] at h
      cases h
    | some known =>
      simp only [heligible] at h
      split at h
      · cases h
      · cases h
        rfl

variable [Share F] {id : TaskId}

theorem branch_ok {m : Nat} (h : t.branch n id = (.ok m, t')) : t'.order = t.order ∧
    ∀ path, t.Legal n (id :: path) → t'.Legal m path := by
  unfold branch at h
  cases hx : t.nodes[n]? with
  | none =>
    rw [hx] at h
    cases h
  | some x =>
    rw [hx] at h
    cases hchild : x.child? id with
    | some m' =>
      simp only [hchild] at h
      cases h
      refine ⟨rfl, ?_⟩
      rintro path ⟨y, hy, -, hrest⟩
      cases hx.symm.trans hy
      rwa [hchild] at hrest
    | none =>
      simp only [hchild] at h
      split at h
      · cases h
      · cases h
        refine ⟨rfl, ?_⟩
        rintro path ⟨y, hy, -, hrest⟩
        cases hx.symm.trans hy
        rw [hchild] at hrest
        subst hrest
        trivial

theorem branch_error {e : TreeError} (h : t.branch n id = (.error e, t')) : t' = t := by
  unfold branch at h
  repeat' split at h
  all_goals cases h
  all_goals rfl

theorem legal_descend (t : Tree F) : ∀ (fuel n switches : Nat) (s : Source),
    t.Legal n (t.descend fuel n switches s).1
  | 0, _, _, _ => trivial
  | fuel + 1, n, switches, s => by
    unfold descend
    cases hx : t.nodes[n]? with
    | none => trivial
    | some x =>
      cases hnext : x.next? with
      | none =>
        simp only [hnext]
        trivial
      | some canonical =>
        have hchosen := mem_of_chooseAt (t := t) hnext switches s
        simp only [hnext]
        cases hchild : x.child? (t.chooseAt x canonical switches s).1 with
        | none =>
          refine ⟨x, hx, hchosen, ?_⟩
          rw [hchild]
        | some m =>
          refine ⟨x, hx, hchosen, ?_⟩
          rw [hchild]
          exact legal_descend t fuel m _ _

/-- Every planned path is legal. -/
theorem legal_plan (t : Tree F) (switches : Nat) (s : Source) : t.Legal root (t.plan switches s).1 :=
  t.legal_descend t.size root switches s

end Tree

/-! ### Exploring -/

/-- The iteration stands at node `n` after a task, none at the start, with a path to follow: what is
recorded there as eligible is what is eligible in its state. -/
structure Sited (c : Cluster σ μ) (finished : Option TaskView) (n : Nat) (path : List TaskId)
    (k : Walk F σ μ) : Prop where
  order : k.tree.order = c.config.order
  here : ∃ x, k.tree.nodes[n]? = some x ∧
    x.eligible = some (Tree.eligible c.config.order finished k.world.pending.views)
  legal : k.tree.Legal n path

namespace Sited

variable {finished : Option TaskView} {n : Nat} {path : List TaskId} {k : Walk F σ μ}

theorem next?_eq (h : Sited c finished n path k) : k.tree.next? n =
    (TreeNode.canonical (Tree.eligible c.config.order finished k.world.pending.views)).map (·.1) := by
  obtain ⟨x, hx, heligible⟩ := h.here
  simp [Tree.next?, hx, TreeNode.next?, heligible]

theorem dry (h : Sited c finished n path k) (hchoice : path.head?.or (k.tree.next? n) = none) :
    Tree.eligible c.config.order finished k.world.pending.views = [] := by
  have hcanonical := (Option.or_eq_none_iff.mp hchoice).2
  rwa [h.next?_eq, Option.map_eq_none_iff, TreeNode.canonical_eq_none_iff] at hcanonical

/-- What is executed next is eligible, and canonical where no path is given. -/
theorem choice (h : Sited c finished n path k) {id : TaskId}
    (hchoice : path.head?.or (k.tree.next? n) = some id) : ∃ t, k.world.pending.get? id = some t ∧
      Rule.eligible c.config.order finished k.world.pending.views t.view ∧
      (path = [] → Rule.canonical c.config.order finished k.world.pending.views t.view) := by
  have hid : id ∈ (Tree.eligible c.config.order finished k.world.pending.views).map (·.1) := by
    cases path with
    | nil =>
      obtain ⟨a, ha, rfl⟩ := Option.map_eq_some_iff.mp (h.next?_eq.symm.trans hchoice)
      exact List.mem_map_of_mem (TreeNode.mem_of_canonical ha)
    | cons id' path =>
      cases hchoice
      obtain ⟨x, hx, hmem, -⟩ := h.legal
      obtain ⟨y, hy, heligible⟩ := h.here
      cases hx.symm.trans hy
      rwa [TreeNode.eligibleIds, heligible] at hmem
  obtain ⟨t, hget⟩ := Option.isSome_iff_exists.mp (Pending.isSome_get?_of_eligible hid)
  have ht : t.id = id := by simpa using List.find?_some hget
  refine ⟨t, hget, ?_, fun hpath => ?_⟩
  · show t.id ∈ _
    rwa [ht]
  · subst hpath
    exact (h.next?_eq.symm.trans hchoice).trans (congrArg some ht.symm)

end Sited

namespace Walker

open Attempt

theorem onTree_cases {α : Type} {f : Tree F → Except TreeError α × Tree F} {r : Except Abort α}
    {k k' : Walk F σ μ} (h : onTree f k = (r, k')) :
    (∃ e t, f k.tree = (.error e, t) ∧ r = .error e.toAbort ∧ k' = { k with tree := t }) ∨
      ∃ a t, f k.tree = (.ok a, t) ∧ r = .ok a ∧ k' = { k with tree := t } := by
  rcases hf : f k.tree with ⟨e | a, t⟩
  · have happly : onTree f k = (.error e.toAbort, ({ k with tree := t } : Walk F σ μ)) := by
      rcases k with ⟨world, tree, executed, visited, time⟩
      show ((f tree).1.mapError _, _) = _
      rw [hf]
      rfl
    cases happly.symm.trans h
    exact .inl ⟨e, t, rfl, rfl, rfl⟩
  · cases (onTree_of_ok hf).symm.trans h
    exact .inr ⟨a, t, rfl, rfl, rfl⟩

variable [Share F] {choice : Rule}

/-- Following a task in the tree ends the iteration where it is, or leads on to a child. -/
theorem follow_cases {n : Nat} {id : TaskId} {path : List TaskId} {t : Task μ}
    {f : Nat → Walker F σ μ Bool} {r : Except Abort Bool} {k k' : Walk F σ μ}
    (horder : k.tree.order = c.config.order) (hlegal : path = [] ∨ k.tree.Legal n (id :: path))
    (h : (do
      let m ← onTree fun tree => tree.branch n id
      enter m
      settle m (some t.view)
      f m) k = (r, k')) :
    (∃ e, r = .error e ∧ k'.world = k.world ∧ k'.executed = k.executed ∧
        k'.tree.order = c.config.order) ∨
      ∃ m k₁, f m k₁ = (r, k') ∧ k₁.world = k.world ∧ k₁.executed = k.executed ∧
        Sited c (some t.view) m path k₁ := by
  rcases bind_cases h with ⟨e, hbranch, rfl⟩ | ⟨m, k₁, hbranch, hrest⟩
  · rcases onTree_cases hbranch with ⟨e', t', hfails, -, rfl⟩ | ⟨a, t', -, hok, -⟩
    · exact .inl ⟨e, rfl, rfl, rfl, by rw [Tree.branch_error hfails]; exact horder⟩
    · cases hok
  · rcases onTree_cases hbranch with ⟨e', t', -, herror, -⟩ | ⟨a, t₁, hgrown, hok, rfl⟩
    · cases herror
    cases hok
    obtain ⟨horder₁, hlegal₁⟩ := Tree.branch_ok hgrown
    have hpath : t₁.Legal m path := by
      rcases hlegal with rfl | hlegal
      · trivial
      · exact hlegal₁ path hlegal
    rw [enter, modify_bind] at hrest
    rcases bind_cases hrest with ⟨e, hsettle, rfl⟩ | ⟨u, k₂, hsettle, hrest⟩
    · rw [settle, get_bind] at hsettle
      rcases onTree_cases hsettle with ⟨e', t', hfails, -, rfl⟩ | ⟨a, t', -, hok, -⟩
      · refine .inl ⟨e, rfl, rfl, rfl, ?_⟩
        rw [Tree.observe_error hfails]
        exact horder₁.trans horder
      · cases hok
    · rw [settle, get_bind] at hsettle
      rcases onTree_cases hsettle with ⟨e', t', -, herror, -⟩ | ⟨a, t₂, hvisited, -, rfl⟩
      · cases herror
      obtain ⟨horder₂, hhere, hlegal₂⟩ := Tree.observe_ok hvisited
      have horder' : t₁.order = c.config.order := horder₁.trans horder
      refine .inr ⟨m, _, hrest, rfl, rfl, horder₂.trans horder', ?_, hlegal₂ path hpath⟩
      rw [← horder']
      exact hhere

/-- Where nothing is pending the tasks have come to their end. -/
theorem course_of_isEmpty {finished : Option TaskView} {w : World σ μ}
    (h : w.pending.isEmpty = true) : Course c choice .lowest finished w [] w true :=
  .whole (.nil _ _) (Tree.eligible_of_isEmpty h) (.nil _ _) h

/-- **The tasks of an exploring iteration**, however they end, are chosen by the rule and, once
nothing is eligible, taken by ascending number. -/
theorem exploreLoop_course (hcanonical : ∀ finished pending t,
      Rule.canonical c.config.order finished pending t → choice finished pending t) :
    ∀ (fuel : Nat) {finished : Option TaskView} {n : Nat} {path : List TaskId}
      {r : Except Abort Bool} {k k' : Walk F σ μ}, Sited c finished n path k →
      (path = [] ∨ ∀ finished pending t,
        Rule.eligible c.config.order finished pending t → choice finished pending t) →
      exploreLoop c fuel n path k = (r, k') →
      ∃ ts, Course c choice .lowest finished k.world ts k'.world r.isOk ∧
        k'.executed = k.executed ++ ts.map Task.id ∧ k'.tree.order = c.config.order
  | 0, finished, n, path, r, k, k', h, _, hrun => by
    unfold exploreLoop at hrun
    rw [get_bind] at hrun
    split at hrun
    · rename_i hempty
      cases hrun
      exact ⟨[], course_of_isEmpty hempty, by simp, h.order⟩
    · cases hrun
      exact ⟨[], .broken (.inl (.nil _ _)), by simp, h.order⟩
  | fuel + 1, finished, n, path, r, k, k', h, hrule, hrun => by
    unfold exploreLoop at hrun
    rw [get_bind] at hrun
    split at hrun
    · rename_i hempty
      cases hrun
      exact ⟨[], course_of_isEmpty hempty, by simp, h.order⟩
    rw [get_bind] at hrun
    cases hchoice : path.head?.or (k.tree.next? n) with
    | none =>
      rw [hchoice] at hrun
      have hdry := h.dry hchoice
      rcases bind_cases hrun with ⟨e, hdrain, rfl⟩ | ⟨u, k₁, hdrain, hdone⟩
      · obtain ⟨ts, hexecuted, htree, ⟨hok, -⟩ | ⟨e', -, htries⟩⟩ := drain_cases hdrain
        · cases hok
        · exact ⟨ts, .swept (.nil _ _) hdry htries, hexecuted, by rw [htree]; exact h.order⟩
      · cases hdone
        obtain ⟨ts, hexecuted, htree, ⟨-, hschedule, hempty⟩ | ⟨e', herror, -⟩⟩ := drain_cases hdrain
        · exact ⟨ts, .whole (.nil _ _) hdry hschedule hempty, hexecuted, by rw [htree]; exact h.order⟩
        · cases herror
    | some id =>
      rw [hchoice] at hrun
      obtain ⟨t, hget, heligible, hcanon⟩ := h.choice hchoice
      have hallowed : choice finished k.world.pending.views t.view := by
        rcases hrule with hpath | hrule
        · exact hcanonical _ _ _ (hcanon hpath)
        · exact hrule _ _ _ heligible
      rcases bind_cases hrun with ⟨e, hexec, rfl⟩ | ⟨v, k₁, hexec, hrest⟩
      · rcases execute_error_cases hget hexec with ⟨-, rfl, -⟩ | ⟨-, w, hadvance, rfl⟩
        · exact ⟨[], .broken (.inl (.nil _ _)), by simp, h.order⟩
        · exact ⟨[], .broken (.inr ⟨t, e, .nil (.of_get? hget hadvance fun _ => hallowed)⟩), rfl,
            h.order⟩
      · obtain ⟨-, u, w, hadvance, rfl, rfl⟩ := execute_ok_iff.mp hexec
        -- The task executed is the one found under the number chosen.
        obtain ⟨pending, htake, -⟩ := Step.advance_ok_iff.mp hadvance
        cases hget.symm.trans (Pending.take_eq_some_iff.mp htake).1
        obtain rfl := Step.id_of_advance hadvance
        have hlegal : path.tail = [] ∨ (k.moved [t] w).tree.Legal n (t.id :: path.tail) := by
          cases path with
          | nil => exact .inl rfl
          | cons id' path =>
            cases hchoice
            exact .inr h.legal
        rcases follow_cases (k := k.moved [t] w) h.order hlegal hrest with
          ⟨e, rfl, hworld, hexecuted, horder⟩ | ⟨m, k₂, hloop, hworld, hexecuted, hsited⟩
        · refine ⟨[t], ?_, by rw [hexecuted]; rfl, horder⟩
          rw [hworld]
          exact .broken (.inl (.cons hallowed hadvance (.nil _ _)))
        · have hrule' : path.tail = [] ∨ ∀ finished pending t,
              Rule.eligible c.config.order finished pending t → choice finished pending t :=
            hrule.imp_left fun hpath => by rw [hpath]; rfl
          obtain ⟨ts, hcourse, hids, horder⟩ := exploreLoop_course hcanonical fuel hsited hrule' hloop
          rw [hworld] at hcourse
          refine ⟨t :: ts, hcourse.cons hallowed hadvance, ?_, horder⟩
          rw [hids, hexecuted]
          simp [Walk.moved]

/-- The tasks of an exploring iteration from its start. -/
theorem explore_course (hcanonical : ∀ finished pending t,
      Rule.canonical c.config.order finished pending t → choice finished pending t)
    {tree : Tree F} {path : List TaskId} {w : World σ μ} {r : Except Abort Bool} {k' : Walk F σ μ}
    (horder : tree.order = c.config.order) (hlegal : tree.Legal Tree.root path)
    (hrule : path = [] ∨ ∀ finished pending t,
      Rule.eligible c.config.order finished pending t → choice finished pending t)
    (hrun : explore c path (Iteration.start c tree w) = (r, k')) :
    ∃ ts, Course c choice .lowest none (w.reset c) ts k'.world r.isOk ∧
      k'.executed = ts.map Task.id ∧ k'.tree.order = c.config.order := by
  rcases bind_cases hrun with ⟨e, hsettle, rfl⟩ | ⟨u, k₁, hsettle, hrest⟩
  · rw [settle, get_bind] at hsettle
    rcases onTree_cases hsettle with ⟨e', t', hfails, -, rfl⟩ | ⟨a, t', -, hok, -⟩
    · refine ⟨[], .broken (.inl (.nil _ _)), rfl, ?_⟩
      rw [Tree.observe_error hfails]
      exact horder
    · cases hok
  · rw [settle, get_bind] at hsettle
    rcases onTree_cases hsettle with ⟨e', t', -, herror, -⟩ | ⟨a, t₁, hvisited, -, rfl⟩
    · cases herror
    obtain ⟨horder₁, hhere, hlegal₁⟩ := Tree.observe_ok hvisited
    rw [enter, modify_bind, get_bind] at hrest
    have hsited : Sited c none Tree.root path
        { Iteration.start c tree w with tree := t₁, visited := [Tree.root] } :=
      ⟨horder₁.trans horder, horder ▸ hhere, hlegal₁ path hlegal⟩
    exact exploreLoop_course hcanonical _ hsited hrule hrest

omit [Share F] in
/-- However the end of the scenario goes, the nodes are told and then tasks are taken by ascending
number. -/
theorem endScenario_cases {r : Except Abort Unit} {k k' : Walk F σ μ}
    (h : endScenario c k = (r, k')) : k'.tree = k.tree ∧
      ((∃ e, tellAll c ((List.range k.world.size).map NodeId.ofIndex) k.world = (some e, k'.world) ∧
          k'.executed = k.executed) ∨
        ∃ ts w, tellAll c ((List.range k.world.size).map NodeId.ofIndex) k.world = (none, w) ∧
          Tries c .lowest none w ts k'.world ∧ k'.executed = k.executed ++ ts.map Task.id) := by
  unfold endScenario at h
  rw [get_bind] at h
  rcases htell : tellAll c ((List.range k.world.size).map NodeId.ofIndex) k.world with ⟨_ | e, w⟩
  · rw [htell] at h
    have hdrain : drain c { k with world := w } = (r, k') := h
    obtain ⟨ts, hexecuted, htree, htries⟩ := drain_cases hdrain
    refine ⟨htree, .inr ⟨ts, w, rfl, ?_, hexecuted⟩⟩
    rcases htries with ⟨-, hschedule, -⟩ | ⟨-, -, htries⟩
    · exact .inl hschedule
    · exact htries
  · rw [htell] at h
    cases h
    exact ⟨rfl, .inl ⟨e, rfl, rfl⟩⟩

end Walker

/-! ### Iterations -/

theorem Tree.order_recountUp [Share F] : ∀ (l : List Nat) (t : Tree F),
    (t.recountUp l).2.order = t.order
  | [], _ => rfl
  | n :: l, t => by
    have hnode := t.order_recountNode n
    unfold recountUp
    split
    · rename_i t' hstep
      rw [hstep] at hnode
      exact (order_recountUp l t').trans hnode
    · rename_i hstep
      rw [hstep] at hnode
      exact hnode

namespace Iteration

variable [Share F] {choice : Rule}

/-- The record of an iteration holds its tasks, and its events unless the time was up. -/
theorem close_record (c : Cluster σ μ) (verifier : Verifier) (exploring : Bool)
    (r : Except Abort Bool) (mid last : Walk F σ μ) :
    (close c verifier exploring (r, mid, last)).1.executed = mid.executed ∧
      (close c verifier exploring (r, mid, last)).1.afterwards =
        last.executed.drop mid.executed.length ∧
      ((close c verifier exploring (r, mid, last)).1.trace = last.world.events ∨
        (close c verifier exploring (r, mid, last)).1.trace = []) := by
  cases r with
  | ok b => exact ⟨rfl, rfl, .inl rfl⟩
  | error e =>
    cases e with
    | timeout => exact ⟨rfl, rfl, .inr rfl⟩
    | _ => exact ⟨rfl, rfl, .inl rfl⟩

/-- **How an exploring iteration goes** along a legal path, and canonically after it: tasks are chosen
by the rule while something is eligible, and taken by ascending number otherwise. -/
theorem conduct_run (verifier : Verifier) {tree : Tree F} {path : List TaskId} (w : World σ μ)
    (hcanonical : ∀ finished pending t,
      Rule.canonical c.config.order finished pending t → choice finished pending t)
    (horder : tree.order = c.config.order) (hlegal : tree.Legal Tree.root path)
    (hrule : path = [] ∨ ∀ finished pending t,
      Rule.eligible c.config.order finished pending t → choice finished pending t) :
    (run c verifier path tree w).1.Conduct c choice .lowest (w.reset c) ∧
      (run c verifier path tree w).2.1.order = c.config.order := by
  unfold run
  rw [tree_close, if_pos rfl, Tree.recount, Tree.order_recountUp]
  unfold walk
  rcases htasks : Walker.explore c path (start c tree w) with ⟨e | b, mid⟩
  · obtain ⟨ts, hcourse, hids, horder'⟩ :=
      Walker.explore_course hcanonical horder hlegal hrule htasks
    obtain ⟨hexecuted, hafter, htrace⟩ := close_record c verifier true (.error e) mid mid
    exact ⟨.cut hcourse (hexecuted.trans hids) (hafter.trans List.drop_length) htrace, horder'⟩
  obtain ⟨ts, hcourse, hids, horder'⟩ := Walker.explore_course hcanonical horder hlegal hrule htasks
  dsimp only
  rcases hend : Walker.endScenario c mid with ⟨r, last⟩
  obtain ⟨htree, hcases⟩ := Walker.endScenario_cases hend
  -- However the end went, the record is made from the states before and after it.
  have hconduct : ∀ r', (close c verifier true (r', mid, last)).1.Conduct c choice .lowest
      (w.reset c) := by
    intro r'
    obtain ⟨hexecuted, hafter, htrace⟩ := close_record c verifier true r' mid last
    rcases hcases with ⟨e, htell, hsame⟩ | ⟨us, w₂, htell, htries, hmore⟩
    · exact .told hcourse htell (hexecuted.trans hids)
        (hafter.trans (by rw [hsame, List.drop_length])) htrace
    · exact .ended hcourse htell htries (hexecuted.trans hids)
        (hafter.trans (by rw [hmore, List.drop_left])) htrace
  cases r with
  | error e => exact ⟨hconduct _, by rw [htree]; exact horder'⟩
  | ok u => exact ⟨hconduct _, by rw [htree]; exact horder'⟩

end Iteration

/-! ### Searches -/

namespace Explorer

variable [Share F] {verifier : Verifier} {x : Explorer F σ μ}

/-- The search is one of the cluster, and its tree keeps the cluster's order of messages. -/
structure Of (c : Cluster σ μ) (verifier : Verifier) (x : Explorer F σ μ) : Prop where
  cluster : x.cluster = c
  verifier : x.verifier = verifier
  order : x.tree.order = c.config.order

theorem Of.conduct_iterate (h : Of c verifier x) :
    x.iterate.1.Conduct c (.eligible c.config.order) .lowest (x.world.reset c) ∧
      Of c verifier x.iterate.2 := by
  obtain ⟨rfl, rfl, horder⟩ := h
  obtain ⟨hconduct, horder'⟩ := Iteration.conduct_run x.verifier x.world
    (fun _ _ _ => Rule.canonical.eligible) horder (x.tree.legal_plan x.switches x.source)
    (.inr fun _ _ _ h => h)
  exact ⟨hconduct, rfl, rfl, horder'⟩

theorem Reachable.of (h : Reachable c verifier x) : Of c verifier x :=
  h.keeps ⟨rfl, rfl, rfl⟩ (fun _ hy => hy.conduct_iterate.2)
    fun _ _ hy => ⟨hy.cluster, hy.verifier, hy.order⟩

/-- **How the iterations of a run go**, whatever went before: while something is eligible, eligible
tasks are executed, and otherwise tasks by ascending number. -/
theorem Reachable.conduct (h : Reachable c verifier x) {it : Iteration}
    (hit : it ∈ x.run.1.history) :
    ∃ w : World σ μ, it.Conduct c (.eligible c.config.order) .lowest (w.reset c) := by
  have hmem := (mem_runLoop (fun _ hy => hy.conduct_iterate.2) x.cluster.config.maxIterations
    h.of).2 it (List.mem_reverse.mp hit)
  obtain ⟨y, hy, rfl, -⟩ := hmem.resolve_left List.not_mem_nil
  exact ⟨y.world, hy.conduct_iterate.1⟩

/-- The first iteration of a run is the first one recorded. -/
theorem getLast?_runLoop : ∀ (fuel : Nat) {history : List Iteration} {x : Explorer F σ μ},
    history ≠ [] → (runLoop fuel history x).1.getLast? = history.getLast?
  | 0, _, _, _ => rfl
  | fuel + 1, history, x, h => by
    obtain ⟨it, rest, rfl⟩ := List.exists_cons_of_ne_nil h
    unfold runLoop
    split
    · rfl
    dsimp only
    split
    · exact List.getLast?_cons_cons
    · exact (getLast?_runLoop fuel (List.cons_ne_nil _ _)).trans List.getLast?_cons_cons

theorem iterate_of_head? {it : Iteration} (h : x.run.1.history.head? = some it) :
    x.iterate.1 = it := by
  have hlast : (runLoop x.cluster.config.maxIterations [] x).1.getLast? = some it :=
    List.head?_reverse.symm.trans h
  cases hfuel : x.cluster.config.maxIterations with
  | zero =>
    rw [hfuel] at hlast
    cases hlast
  | succ fuel =>
    rw [hfuel] at hlast
    unfold runLoop at hlast
    split at hlast
    · cases hlast
    dsimp only at hlast
    split at hlast
    · cases hlast
      rfl
    · rw [getLast?_runLoop fuel (List.cons_ne_nil _ _)] at hlast
      cases hlast
      rfl

/-- **How the first iteration of a search goes**: it follows no path, so all its choices are
canonical. -/
theorem conduct_first (h : Explorer.new c verifier = .ok x) {it : Iteration}
    (hit : x.run.1.history.head? = some it) :
    it.Conduct c (.canonical c.config.order) .lowest ((World.new c).reset c) := by
  obtain rfl := iterate_of_head? hit
  obtain ⟨rfl, -⟩ := eq_fresh_of_new h
  have hlegal : (Tree.empty c.config.order : Tree F).Legal Tree.root [] := trivial
  exact (Iteration.conduct_run verifier (World.new c) (fun _ _ _ h => h) rfl hlegal (.inl rfl)).1

end Explorer

end Interleave
