/-
# Schedules

A schedule executes pending tasks one after the other. Which task may come next
is a rule on the task finished before it and the tasks pending. Two rules matter:
any task whose delivery does not overtake another on a first-in first-out link
(`Rule.linked`), and the tasks that the tree holds to be eligible (`Rule.eligible`).
-/
import Interleave.Proofs.Ascending
import Interleave.Proofs.Regular
import Interleave.Tree

namespace Interleave

variable {σ μ : Type}

namespace Step

open Attempt

/-- Takes a pending task and executes it. -/
def advance (c : Cluster σ μ) (id : TaskId) : Step σ μ (Task μ) := do
  match (← get).pending.take id with
  | none => throw (.unknownTask id)
  | some (task, pending) =>
    modify fun w => { w with pending := pending }
    execute c task
    return task

theorem advance_ok_iff {c : Cluster σ μ} {id : TaskId} {t : Task μ} {w w' : World σ μ} :
    advance c id w = (.ok t, w') ↔ ∃ pending, w.pending.take id = some (t, pending) ∧
      execute c t { w with pending := pending } = (.ok (), w') := by
  unfold advance
  rw [get_bind]
  cases htake : w.pending.take id with
  | none =>
    constructor
    · intro h
      cases h
    · rintro ⟨pending, h, -⟩
      cases h
  | some taken =>
    obtain ⟨task, pending⟩ := taken
    simp only [modify_bind]
    constructor
    · intro h
      obtain ⟨u, w₁, h₁, h₂⟩ := bind_ok h
      cases h₂
      exact ⟨pending, rfl, h₁⟩
    · rintro ⟨pending', h, h₁⟩
      cases h
      rw [bind_of_ok h₁]
      rfl

theorem forgetful_advance {c : Cluster σ μ} (hc : c.registry.Deterministic) (id : TaskId) :
    Forgetful (advance c id) := by
  intro w
  unfold advance
  rw [get_bind, get_bind]
  have hsame : w.forget.pending.take id = w.pending.take id := rfl
  rw [hsame]
  rcases w.pending.take id with _ | ⟨task, pending⟩
  · rfl
  · exact ((regular_execute hc task).bind fun _ => regular_pure task).forgets
      { w with pending := pending }

end Step

/-! ### Rules -/

/-- Whether a task may be executed after another one, none at the start, while tasks are pending. -/
abbrev Rule := Option TaskView → List TaskView → TaskView → Prop

namespace Rule

/-- Deliveries do not overtake each other on first-in first-out links. -/
def linked (order : DeliveryOrder) : Rule := fun _ pending t =>
  order = .fifo → Tree.waits pending t = false

/-- The tree holds the task to be eligible. -/
def eligible (order : DeliveryOrder) : Rule := fun finished pending t =>
  t.id ∈ (Tree.eligible order finished pending).map (·.1)

/-- No task pending has a lower number. -/
def lowest : Rule := fun _ pending t => pending.head?.map TaskView.id = some t.id

def any : Rule := fun _ _ _ => True

end Rule

/-- Tasks executed in order from one state to another, each allowed by the rule. The task finished
before the first one is given, none at the start. -/
inductive Schedule (c : Cluster σ μ) (rule : Rule) :
    Option TaskView → World σ μ → List (Task μ) → World σ μ → Prop
  | nil (finished : Option TaskView) (w : World σ μ) : Schedule c rule finished w [] w
  | cons {finished : Option TaskView} {w w₁ w₂ : World σ μ} {t : Task μ} {ts : List (Task μ)}
      (allowed : rule finished w.pending.views t.view) (done : Step.advance c t.id w = (.ok t, w₁))
      (rest : Schedule c rule (some t.view) w₁ ts w₂) : Schedule c rule finished w (t :: ts) w₂

/-- The task finished last, when tasks were executed after a first one. -/
def finishedBy (finished : Option TaskView) (ts : List (Task μ)) : Option TaskView :=
  ts.foldl (fun _ t => some t.view) finished

namespace Schedule

variable {c : Cluster σ μ} {rule rule' : Rule} {finished : Option TaskView} {w w₁ w₂ : World σ μ}
  {ts us : List (Task μ)} {t : Task μ}

theorem mono (h : Schedule c rule finished w ts w₁)
    (hrule : ∀ finished pending t, rule finished pending t → rule' finished pending t) :
    Schedule c rule' finished w ts w₁ := by
  induction h with
  | nil => exact .nil _ _
  | cons allowed done rest ih => exact .cons (hrule _ _ _ allowed) done ih

theorem append (h : Schedule c rule finished w ts w₁)
    (h' : Schedule c rule (finishedBy finished ts) w₁ us w₂) :
    Schedule c rule finished w (ts ++ us) w₂ := by
  induction h with
  | nil => exact h'
  | cons allowed done rest ih => exact .cons allowed done (ih h')

theorem snoc (h : Schedule c rule finished w ts w₁)
    (allowed : rule (finishedBy finished ts) w₁.pending.views t.view)
    (done : Step.advance c t.id w₁ = (.ok t, w₂)) : Schedule c rule finished w (ts ++ [t]) w₂ :=
  h.append (.cons allowed done (.nil _ _))

/-- What is finished does not matter to a rule that does not ask for it. -/
theorem of_finished (hrule : ∀ f f' pending t, rule f pending t → rule f' pending t)
    (h : Schedule c rule finished w ts w₁) (finished' : Option TaskView) :
    Schedule c rule finished' w ts w₁ := by
  cases h with
  | nil => exact .nil _ _
  | cons allowed done rest => exact .cons (hrule _ _ _ _ allowed) done rest

/-- The count of instances can be left out of a schedule. -/
theorem forget (hc : c.registry.Deterministic) (h : Schedule c rule finished w ts w₁) :
    Schedule c rule finished w.forget ts w₁.forget := by
  induction h with
  | nil => exact .nil _ _
  | cons allowed done rest ih =>
    refine .cons allowed ?_ ih
    rw [Step.forgetful_advance hc, done]

/-- The same schedule from a state that differs in the count of instances only. -/
theorem transport (hc : c.registry.Deterministic) (h : Schedule c rule finished w ts w₁)
    {v : World σ μ} (hv : v.forget = w.forget) :
    ∃ v₁, Schedule c rule finished v ts v₁ ∧ v₁.forget = w₁.forget := by
  induction h generalizing v with
  | nil => exact ⟨v, .nil _ v, hv⟩
  | cons allowed done rest ih =>
    obtain ⟨v', hdone, hv'⟩ := (Step.forgetful_advance hc _).transport done hv
    obtain ⟨v₁, hrest, hv₁⟩ := ih hv'
    have hpending : v.forget.pending = _ := congrArg World.pending hv
    refine ⟨v₁, .cons ?_ hdone hrest, hv₁⟩
    rw [show v.pending = _ from hpending]
    exact allowed

end Schedule

/-! ### Eligible tasks -/

/-- The eligible numbers are those of the eligible tasks. -/
theorem Tree.mem_eligible {order : DeliveryOrder} {finished : Option TaskView}
    {pending : List TaskView} {id : TaskId} : id ∈ (eligible order finished pending).map (·.1) ↔
      ∃ t ∈ eligibleViews order finished pending, t.id = id := by
  rw [eligible, Ascending.mem_keys_ofEntries, List.map_map, List.mem_map]
  rfl

end Interleave
