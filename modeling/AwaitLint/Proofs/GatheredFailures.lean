import AwaitLint.Tasks.World
import Mathlib.Data.List.Basic

/-!
# AwaitLint — the failures that a combined task gathers

Threads interleave in any way, and tasks end in any order. What a task for all of a list ends with
does not show it: the failures of the members stand in the order of the list. The module follows a
run by its **plan**, which says what each task was made from.

* **`Origin.Allows`** — the stages that a task can be in, given what it was made from. A thread that
  gathers has found what the members before its place ended with.
* **`World.Keeps`** — whatever happens, a task that is done stays so, with the same outcome.
* **`Follows.step`**, **`Follows.run`** — one event, and so every run, keeps all tasks at stages
  that the plan allows.
* **`planned`** — what each task ends with, read off the plan; no schedule occurs in it.
* **`Follows.isDone_settle`** — waiting for a combined task ends once its members are done.
* **`whenAll_failures_in_order`** — the headline.
-/

namespace AwaitLint.Tasks

/-! ## Plans -/

/-- What a function ends with, however long it waits. -/
def Script.outcome : Script → Outcome
  | gate _ rest => rest.outcome
  | untilCanceled value => ⟨value, [.canceled]⟩
  | panics value => ⟨"", [.panic value]⟩
  | returns value failures => ⟨value, failures⟩

/-- What a task is made from. -/
inductive Origin where
  | function (script : Script)
  | ended (outcome : Outcome)
  | all (members : List Nat)

/-- The tasks that a task waits for. -/
def Origin.members : Origin → List Nat
  | all members => members
  | function _ | ended _ => []

/-- What the task that an event makes is made from. -/
def World.Event.origin? : World.Event → Option Origin
  | .launch _ script => some (.function script)
  | .addDone outcome => some (.ended outcome)
  | .whenAll members => some (.all members)
  | .scope _ | .cancel _ | .openGate _ | .terminate _ | .turn _ => none

/-- What the tasks of a run are made from, in the order of their numbers. -/
def plan (events : List World.Event) : List Origin := events.filterMap World.Event.origin?

/-- Tasks are made for tasks that are there already. -/
def EarlierMembers (plan : List Origin) : Prop :=
  ∀ e ∈ plan.zipIdx, ∀ m ∈ e.1.members, m < e.2

instance (plan : List Origin) : Decidable (EarlierMembers plan) := by
  unfold EarlierMembers
  infer_instance

theorem EarlierMembers.lt {plan : List Origin} (h : EarlierMembers plan) {t m : Nat}
    {members : List Nat} (ht : plan[t]? = some (.all members)) (hm : m ∈ members) : m < t :=
  h (.all members, t) (List.mem_zipIdx_iff_getElem?.2 ht) m hm

/-! ## What is done stays done -/

namespace World

/-- The failures of a task, none as long as it is not done. -/
def errors (w : World) (t : Nat) : List Failure := (w.failures? t).getD []

/-- Every task that is done in `w` is done in `w'`, with the same outcome. -/
def Keeps (w w' : World) : Prop := ∀ t o, w.outcome? t = some o → w'.outcome? t = some o

variable {w w' : World} {t : Nat}

theorem outcome?_eq_some_iff {o : Outcome} :
    w.outcome? t = some o ↔ ∃ task, w.tasks[t]? = some task ∧ task.stage = .done o := by
  unfold outcome?
  rw [Option.bind_eq_some_iff]
  refine exists_congr fun task => and_congr_right fun _ => ?_
  cases task.stage <;> simp [Stage.outcome?]

theorem isDone_iff : w.isDone t = true ↔ ∃ o, w.outcome? t = some o := by
  rw [isDone, Option.isSome_iff_exists]

theorem errors_of_outcome? {o : Outcome} (h : w.outcome? t = some o) : w.errors t = o.failures := by
  rw [errors, failures?, h]
  rfl

theorem Keeps.of_tasks (h : w'.tasks = w.tasks) : w.Keeps w' := by
  intro t o ho
  unfold outcome? at ho ⊢
  rwa [h]

theorem Keeps.isDone (h : w.Keeps w') (ht : w.isDone t = true) : w'.isDone t = true := by
  obtain ⟨o, ho⟩ := isDone_iff.1 ht
  exact isDone_iff.2 ⟨o, h t o ho⟩

theorem Keeps.errors_eq (h : w.Keeps w') (ht : w.isDone t = true) : w'.errors t = w.errors t := by
  obtain ⟨o, ho⟩ := isDone_iff.1 ht
  rw [errors_of_outcome? ho, errors_of_outcome? (h t o ho)]

theorem Keeps.flatMap_errors_eq (h : w.Keeps w') {members : List Nat}
    (hdone : ∀ m ∈ members, w.isDone m = true) :
    members.flatMap w'.errors = members.flatMap w.errors :=
  List.flatMap_congr fun m hm => h.errors_eq (hdone m hm)

theorem keeps_addTask (w : World) (task : Task) : w.Keeps (w.addTask task).1 := by
  intro t o ho
  obtain ⟨old, hold, hstage⟩ := outcome?_eq_some_iff.1 ho
  refine outcome?_eq_some_iff.2 ⟨old, ?_, hstage⟩
  exact List.getElem?_append_left (List.getElem?_eq_some_iff.1 hold).1 ▸ hold

/-! ### Turns -/

theorem tasks_turn {task : Task} (h : w.tasks[t]? = some task) :
    (w.turn t).tasks = w.tasks.set t { task with stage := w.advance task } := by
  unfold turn
  rw [h]
  dsimp only
  split <;> rfl

theorem turn_of_none (h : w.tasks[t]? = none) : w.turn t = w := by
  unfold turn
  rw [h]

/-- The thread of a task that is done does nothing. -/
theorem advance_done {task : Task} {o : Outcome} (h : task.stage = .done o) :
    w.advance task = .done o := by
  unfold advance
  rw [h]

theorem keeps_turn (w : World) (t : Nat) : w.Keeps (w.turn t) := by
  intro u o ho
  obtain ⟨task, htask, hstage⟩ := outcome?_eq_some_iff.1 ho
  cases hturn : w.tasks[t]? with
  | none => rwa [turn_of_none hturn]
  | some moved =>
    refine outcome?_eq_some_iff.2 ?_
    rw [tasks_turn hturn]
    by_cases hut : t = u
    · -- the task itself: its thread has ended
      subst hut
      obtain rfl := Option.some.inj (hturn.symm.trans htask)
      have hlt := (List.getElem?_eq_some_iff.1 htask).1
      exact ⟨_, List.getElem?_set_self hlt, advance_done hstage⟩
    · exact ⟨task, by rwa [List.getElem?_set_ne hut], hstage⟩

theorem keeps_step (w : World) (e : Event) : w.Keeps (w.step e) := by
  cases e with
  | scope parent => exact .of_tasks rfl
  | cancel scope => exact .of_tasks rfl
  | openGate name => exact .of_tasks rfl
  | terminate task => exact .of_tasks rfl
  | launch parent script =>
    show w.Keeps ((w.addScope parent).1.addTask _).1
    exact keeps_addTask (w.addScope parent).1 _
  | addDone outcome => exact keeps_addTask w _
  | whenAll members =>
    show w.Keeps (w.whenAll members).1
    unfold whenAll
    split <;> exact keeps_addTask w _
  | turn t => exact keeps_turn w t

theorem keeps_run (w : World) (events : List Event) : w.Keeps (w.run events) := by
  induction events generalizing w with
  | nil => exact fun _ _ ho => ho
  | cons e events ih => exact fun t o ho => ih (w.step e) t o (keeps_step w e t o ho)

end World

/-! ## Stages that a plan allows -/

/-- The stages of a task that is made from `origin`. The members that a gathering thread has passed
are done in `w`, and their failures are what it has found. -/
inductive Origin.Allows (w : World) : Origin → Stage → Prop where
  | running {script rest : Script} {scope : Nat} (h : rest.outcome = script.outcome) :
      Allows w (.function script) (.running rest scope)
  | returned {script : Script} {o : Outcome} {scopes : List Nat} (h : script.outcome = o) :
      Allows w (.function script) (.ending o scopes)
  | finished {script : Script} {o : Outcome} (h : script.outcome = o) :
      Allows w (.function script) (.done o)
  | ended {o : Outcome} : Allows w (.ended o) (.done o)
  | gathering {passed rest : List Nat} (h : ∀ m ∈ passed, w.isDone m = true) :
      Allows w (.all (passed ++ rest)) (.gathering rest (passed.flatMap w.errors))
  | gathered {members scopes : List Nat} (h : ∀ m ∈ members, w.isDone m = true) :
      Allows w (.all members) (.ending ⟨"", members.flatMap w.errors⟩ scopes)
  | joined {members : List Nat} (h : ∀ m ∈ members, w.isDone m = true) :
      Allows w (.all members) (.done ⟨"", members.flatMap w.errors⟩)

namespace Origin.Allows

open World

variable {w w' : World} {origin : Origin} {stage : Stage}

theorem keeps (h : origin.Allows w stage) (hk : w.Keeps w') : origin.Allows w' stage := by
  cases h with
  | running h => exact .running h
  | returned h => exact .returned h
  | finished h => exact .finished h
  | ended => exact .ended
  | gathering h =>
    rw [← hk.flatMap_errors_eq h]
    exact .gathering fun m hm => hk.isDone (h m hm)
  | gathered h =>
    rw [← hk.flatMap_errors_eq h]
    exact .gathered fun m hm => hk.isDone (h m hm)
  | joined h =>
    rw [← hk.flatMap_errors_eq h]
    exact .joined fun m hm => hk.isDone (h m hm)

/-- **One step of a thread** leads from an allowed stage to an allowed stage. -/
theorem advance {task : Task} (h : origin.Allows w task.stage) : origin.Allows w (w.advance task) := by
  unfold World.advance
  generalize task.stage = stage at h
  cases h with
  | @running script rest scope h =>
    cases rest with
    | gate name rest =>
      dsimp only
      split
      · exact .running h
      · exact .running h
    | untilCanceled value =>
      dsimp only
      split
      · exact .returned h.symm
      · exact .running h
    | panics value => exact .returned h.symm
    | returns value failures => exact .returned h.symm
  | @returned script o scopes h =>
    cases scopes with
    | nil => exact .finished h
    | cons scope scopes => exact .returned h
  | finished h => exact .finished h
  | ended => exact .ended
  | @gathering passed rest h =>
    cases rest with
    | nil =>
      rw [List.append_nil]
      exact .gathered h
    | cons m rest =>
      dsimp only
      split
      · -- the next member is done: it is passed, and its failures are appended
        rename_i found hfound
        have herrors : w.errors m = found := by rw [World.errors, hfound]; rfl
        have hdone : w.isDone m = true := by
          obtain ⟨o, ho, -⟩ := Option.map_eq_some_iff.1 hfound
          exact isDone_iff.2 ⟨o, ho⟩
        have hpassed : ∀ x ∈ passed ++ [m], w.isDone x = true :=
          List.forall_mem_append.2 ⟨h, List.forall_mem_singleton.2 hdone⟩
        have hstep : Origin.Allows w (.all (passed ++ [m] ++ rest)) _ := gathering hpassed
        rwa [List.flatMap_append, List.flatMap_singleton, herrors, List.append_assoc,
          List.singleton_append] at hstep
      · exact .gathering h
  | @gathered members scopes h =>
    cases scopes with
    | nil => exact .joined h
    | cons scope scopes => exact .gathered h
  | joined h => exact .joined h

end Origin.Allows

/-- Every task of `w` is at a stage that the plan allows. -/
structure Follows (plan : List Origin) (w : World) : Prop where
  length : w.tasks.length = plan.length
  allows : ∀ {t : Nat} {task : Task} {origin : Origin}, w.tasks[t]? = some task →
    plan[t]? = some origin → origin.Allows w task.stage

namespace Follows

open World

variable {p : List Origin} {w w' : World} {t : Nat}

theorem start : Follows [] World.start := ⟨rfl, nofun⟩

theorem of_tasks (h : Follows p w) (htasks : w'.tasks = w.tasks) : Follows p w' := by
  refine ⟨htasks ▸ h.length, fun ht ho => ?_⟩
  rw [htasks] at ht
  exact (h.allows ht ho).keeps (.of_tasks htasks)

theorem addTask (h : Follows p w) {origin : Origin} {task : Task}
    (hnew : origin.Allows w task.stage) : Follows (p ++ [origin]) (w.addTask task).1 := by
  have hkeeps := keeps_addTask w task
  refine ⟨?_, fun {t task' origin'} ht ho => ?_⟩
  · show (w.tasks ++ [task]).length = (p ++ [origin]).length
    rw [List.length_append, List.length_append, h.length]
    rfl
  · change (w.tasks ++ [task])[t]? = some task' at ht
    by_cases hold : t < w.tasks.length
    · rw [List.getElem?_append_left hold] at ht
      rw [List.getElem?_append_left (h.length ▸ hold)] at ho
      exact (h.allows ht ho).keeps hkeeps
    · -- the new task is the last of both lists
      rw [List.getElem?_append_right (Nat.le_of_not_lt hold)] at ht
      rw [List.getElem?_append_right (h.length ▸ Nat.le_of_not_lt hold), ← h.length] at ho
      obtain rfl := List.mem_singleton.1 (List.mem_of_getElem? ht)
      obtain rfl := List.mem_singleton.1 (List.mem_of_getElem? ho)
      exact hnew.keeps hkeeps

theorem turn (h : Follows p w) (t : Nat) : Follows p (w.turn t) := by
  cases hturn : w.tasks[t]? with
  | none =>
    rw [turn_of_none hturn]
    exact h
  | some moved =>
    have hkeeps := keeps_turn w t
    refine ⟨?_, fun {u task origin} hu ho => ?_⟩
    · rw [tasks_turn hturn, List.length_set]
      exact h.length
    · rw [tasks_turn hturn] at hu
      by_cases hut : t = u
      · subst hut
        rw [List.getElem?_set_self (List.getElem?_eq_some_iff.1 hturn).1] at hu
        cases hu
        exact (h.allows hturn ho).advance.keeps hkeeps
      · rw [List.getElem?_set_ne hut] at hu
        exact (h.allows hu ho).keeps hkeeps

/-- **One event**: the plan grows by what the event makes, and all tasks follow it. -/
theorem step (h : Follows p w) (e : Event) : Follows (p ++ e.origin?.toList) (w.step e) := by
  cases e with
  | scope parent => exact (List.append_nil p).symm ▸ h.of_tasks rfl
  | cancel scope => exact (List.append_nil p).symm ▸ h.of_tasks rfl
  | openGate name => exact (List.append_nil p).symm ▸ h.of_tasks rfl
  | terminate task => exact (List.append_nil p).symm ▸ h.of_tasks rfl
  | turn t => exact (List.append_nil p).symm ▸ h.turn t
  | launch parent script =>
    have hscope : Follows p (w.addScope parent).1 := h.of_tasks rfl
    exact hscope.addTask (.running rfl)
  | addDone outcome => exact h.addTask .ended
  | whenAll members =>
    show Follows (p ++ [.all members]) (w.whenAll members).1
    unfold World.whenAll
    split
    · rename_i hempty
      rw [List.isEmpty_iff.1 hempty]
      exact h.addTask (.joined nofun)
    · have hnew : Origin.Allows w (.all ([] ++ members)) (.gathering members []) := .gathering nofun
      exact h.addTask hnew

/-- **A run**: all tasks follow the plan of the events. -/
theorem run (h : Follows p w) (events : List Event) : Follows (p ++ plan events) (w.run events) := by
  induction events generalizing p w with
  | nil => exact (List.append_nil p).symm ▸ h
  | cons e events ih =>
    have hplan : p ++ plan (e :: events) = p ++ e.origin?.toList ++ plan events := by
      rw [List.append_assoc, plan, plan, List.filterMap_cons]
      cases e.origin? <;> rfl
    rw [hplan]
    exact ih (h.step e)

/-! ### What tasks end with -/

variable {o : Outcome} {members : List Nat}

theorem outcome_of_function (h : Follows p w) {script : Script}
    (ht : p[t]? = some (.function script)) (ho : w.outcome? t = some o) : o = script.outcome := by
  obtain ⟨task, htask, hstage⟩ := outcome?_eq_some_iff.1 ho
  have hallows := hstage ▸ h.allows htask ht
  cases hallows with
  | finished heq => exact heq.symm

theorem outcome_of_ended (h : Follows p w) {ended : Outcome} (ht : p[t]? = some (.ended ended))
    (ho : w.outcome? t = some o) : o = ended := by
  obtain ⟨task, htask, hstage⟩ := outcome?_eq_some_iff.1 ho
  have hallows := hstage ▸ h.allows htask ht
  cases hallows with
  | ended => rfl

/-- A task for all of a list is done only when they are, and has their failures in order. -/
theorem outcome_of_all (h : Follows p w) (ht : p[t]? = some (.all members))
    (ho : w.outcome? t = some o) :
    (∀ m ∈ members, w.isDone m = true) ∧ o = ⟨"", members.flatMap w.errors⟩ := by
  obtain ⟨task, htask, hstage⟩ := outcome?_eq_some_iff.1 ho
  have hallows := hstage ▸ h.allows htask ht
  cases hallows with
  | joined hdone => exact ⟨hdone, rfl⟩

theorem exists_origin (h : Follows p w) (ho : w.outcome? t = some o) :
    ∃ origin, p[t]? = some origin := by
  obtain ⟨task, htask, -⟩ := outcome?_eq_some_iff.1 ho
  have hlt : t < p.length := h.length ▸ (List.getElem?_eq_some_iff.1 htask).1
  exact ⟨_, List.getElem?_eq_getElem hlt⟩

end Follows

/-! ## What a plan leads to -/

/-- What a task ends with, by the plan alone: the failures under a task for all of a list are those
under its members, down to the tasks that are not combined. -/
def planned (plan : List Origin) (t : Nat) : Outcome :=
  match plan[t]? with
  | some (.function script) => script.outcome
  | some (.ended outcome) => outcome
  | some (.all members) =>
    ⟨"", members.flatMap fun m => if m < t then (planned plan m).failures else []⟩
  | none => ⟨"", []⟩
termination_by t

theorem planned_all {p : List Origin} {t : Nat} {members : List Nat} (hp : EarlierMembers p)
    (ht : p[t]? = some (.all members)) :
    planned p t = ⟨"", members.flatMap fun m => (planned p m).failures⟩ := by
  rw [planned, ht]
  refine congrArg _ (List.flatMap_congr fun m hm => ?_)
  rw [if_pos (hp.lt ht hm)]

/-- **Schedules do not show**: a task that is done has the outcome of the plan. The induction is on
its number, as members come before the task that waits for them. -/
theorem Follows.outcome_eq_planned {p : List Origin} {w : World} (h : Follows p w)
    (hp : EarlierMembers p) {t : Nat} {o : Outcome} (ho : w.outcome? t = some o) :
    o = planned p t := by
  induction t using Nat.strongRecOn generalizing o with
  | ind t ih =>
    obtain ⟨origin, horigin⟩ := h.exists_origin ho
    cases origin with
    | function script =>
      rw [h.outcome_of_function horigin ho, planned, horigin]
    | ended outcome =>
      rw [h.outcome_of_ended horigin ho, planned, horigin]
    | all members =>
      obtain ⟨hdone, rfl⟩ := h.outcome_of_all horigin ho
      rw [planned_all hp horigin]
      refine congrArg _ (List.flatMap_congr fun m hm => ?_)
      obtain ⟨om, hom⟩ := World.isDone_iff.1 (hdone m hm)
      rw [World.errors_of_outcome? hom, ih m (hp.lt horigin hm) hom]

/-- The failures `found` are those of the members, all of which are done, in the order of the list
and down through the tasks that are combined themselves. -/
structure Gathers (p : List Origin) (w : World) (members : List Nat) (found : List Failure) :
    Prop where
  done : ∀ m ∈ members, w.isDone m = true
  inOrder : found = members.flatMap w.errors
  throughout : found = members.flatMap fun m => (planned p m).failures

theorem Follows.gathers {p : List Origin} {w : World} (h : Follows p w) (hp : EarlierMembers p)
    {t : Nat} {members : List Nat} (ht : p[t]? = some (.all members)) {o : Outcome}
    (ho : w.outcome? t = some o) : Gathers p w members o.failures := by
  obtain ⟨hdone, heq⟩ := h.outcome_of_all ht ho
  refine ⟨hdone, congrArg Outcome.failures heq, ?_⟩
  rw [h.outcome_eq_planned hp ho, planned_all hp ht]

/-! ## Waiting

`World.settle` takes turns as long as threads get on, so that what it leads to is the end of a run.
A thread that gathers gets on once all members are done, whatever the others do. -/

namespace World

variable {w : World} {t u : Nat}

theorem run_append (w : World) (events later : List Event) :
    w.run (events ++ later) = (w.run events).run later := List.foldl_append

theorem exists_settle_eq_run (w : World) : ∃ ts : List Nat, w.settle = w.run (ts.map .turn) := by
  induction w using settle.induct with
  | case1 w hlt ih =>
    obtain ⟨ts, hts⟩ := ih
    refine ⟨List.range w.tasks.length ++ ts, ?_⟩
    rw [settle, if_pos hlt, hts, List.map_append, run_append]
    rfl
  | case2 w hnot =>
    refine ⟨[], ?_⟩
    rw [settle, if_neg hnot]
    rfl

theorem not_steps_sweep_settle_lt (w : World) : ¬ w.settle.sweep.steps < w.settle.steps := by
  induction w using settle.induct with
  | case1 w hlt ih => rwa [settle, if_pos hlt]
  | case2 w hnot => rwa [settle, if_neg hnot]

/-! ### Steps that are left -/

/-- A step of a thread leaves its stage as it is or brings the end nearer. -/
theorem advance_eq_or_steps_lt (w : World) (task : Task) :
    w.advance task = task.stage ∨
      ({ task with stage := w.advance task } : Task).steps < task.steps := by
  obtain ⟨scopes, stage⟩ := task
  unfold advance
  cases stage with
  | running script scope =>
    cases script with
    | gate name rest =>
      dsimp only
      split
      · exact .inr (by simp only [Task.steps, Script.steps]; omega)
      · exact .inl rfl
    | untilCanceled value =>
      dsimp only
      split
      · exact .inr (by simp only [Task.steps, Script.steps]; omega)
      · exact .inl rfl
    | panics value => exact .inr (by simp only [Task.steps, Script.steps]; omega)
    | returns value failures => exact .inr (by simp only [Task.steps, Script.steps]; omega)
  | gathering members found =>
    cases members with
    | nil => exact .inr (by simp only [Task.steps, List.length_nil]; omega)
    | cons m members =>
      dsimp only
      split
      · exact .inr (by simp only [Task.steps, List.length_cons]; omega)
      · exact .inl rfl
  | ending o scopes =>
    cases scopes with
    | nil => exact .inr (by simp only [Task.steps, List.length_nil]; omega)
    | cons scope scopes => exact .inr (by simp only [Task.steps, List.length_cons]; omega)
  | done o => exact .inl rfl

theorem steps_turn {task : Task} (h : w.tasks[t]? = some task) :
    (w.turn t).steps + task.steps
      = w.steps + ({ task with stage := w.advance task } : Task).steps := by
  unfold steps
  rw [tasks_turn h]
  exact total_set Task.steps h _

theorem steps_turn_le (w : World) (t : Nat) : (w.turn t).steps ≤ w.steps := by
  cases h : w.tasks[t]? with
  | none => exact Nat.le_of_eq (by rw [turn_of_none h])
  | some task =>
    have hsteps := steps_turn h
    rcases w.advance_eq_or_steps_lt task with heq | hlt
    · rw [heq] at hsteps
      exact Nat.le_of_eq (Nat.add_right_cancel hsteps)
    · omega

theorem steps_run_turns_le (w : World) (ts : List Nat) :
    (w.run (ts.map .turn)).steps ≤ w.steps := by
  induction ts generalizing w with
  | nil => exact Nat.le_refl _
  | cons t ts ih => exact Nat.le_trans (ih (w.turn t)) (steps_turn_le w t)

/-- The thread of a combined task that has nothing to wait for: it is ending, or all members that
it has still to pass are done. -/
def Ready (w : World) (t : Nat) : Prop :=
  ∃ task, w.tasks[t]? = some task ∧
    ((∃ o scopes, task.stage = .ending o scopes) ∨
      ∃ members found, task.stage = .gathering members found ∧ ∀ m ∈ members, w.isDone m = true)

theorem Ready.turn_of_ne (h : w.Ready t) (hne : u ≠ t) : (w.turn u).Ready t := by
  obtain ⟨task, htask, hstage⟩ := h
  cases hu : w.tasks[u]? with
  | none =>
    rw [turn_of_none hu]
    exact ⟨task, htask, hstage⟩
  | some moved =>
    refine ⟨task, ?_, hstage.imp_right ?_⟩
    · rwa [tasks_turn hu, List.getElem?_set_ne hne]
    · rintro ⟨members, found, heq, hdone⟩
      exact ⟨members, found, heq, fun m hm => (keeps_turn w u).isDone (hdone m hm)⟩

theorem Ready.steps_turn_lt (h : w.Ready t) : (w.turn t).steps < w.steps := by
  obtain ⟨task, htask, hstage⟩ := h
  have hsteps := steps_turn htask
  have hmoves : w.advance task ≠ task.stage := by
    unfold advance
    rcases hstage with ⟨o, scopes, heq⟩ | ⟨members, found, heq, hdone⟩
    · rw [heq]
      cases scopes <;> simp
    · rw [heq]
      cases members with
      | nil => simp
      | cons m members =>
        obtain ⟨o, ho⟩ := isDone_iff.1 (hdone m List.mem_cons_self)
        simp [failures?, ho]
  rcases w.advance_eq_or_steps_lt task with heq | hlt
  · exact absurd heq hmoves
  · omega

/-- When every thread has had its turn, one that was ready has got on. -/
theorem Ready.steps_run_lt {ts : List Nat} (h : w.Ready t) (ht : t ∈ ts) :
    (w.run (ts.map .turn)).steps < w.steps := by
  induction ts generalizing w with
  | nil => cases ht
  | cons u ts ih =>
    by_cases hut : u = t
    · subst hut
      exact Nat.lt_of_le_of_lt (steps_run_turns_le (w.turn u) ts) h.steps_turn_lt
    · have hmem : t ∈ ts := (List.mem_cons.1 ht).resolve_left fun heq => hut heq.symm
      exact Nat.lt_of_lt_of_le (ih (h.turn_of_ne hut) hmem) (steps_turn_le w u)

theorem not_ready_settle (w : World) (t : Nat) : ¬ w.settle.Ready t := by
  intro h
  obtain ⟨task, htask, -⟩ := id h
  have hlt : t < w.settle.tasks.length := (List.getElem?_eq_some_iff.1 htask).1
  exact w.not_steps_sweep_settle_lt (h.steps_run_lt (List.mem_range.2 hlt))

end World

theorem plan_turns (ts : List Nat) : plan (ts.map .turn) = [] := by
  induction ts with
  | nil => rfl
  | cons t ts ih => exact ih

theorem Follows.settle {p : List Origin} {w : World} (h : Follows p w) : Follows p w.settle := by
  obtain ⟨ts, hts⟩ := w.exists_settle_eq_run
  have hrun := h.run (ts.map .turn)
  rwa [plan_turns, List.append_nil, ← hts] at hrun

/-- A task for all of a list is awaited successfully once the members are done. -/
theorem Follows.isDone_settle {p : List Origin} {w : World} (h : Follows p w) {t : Nat}
    {members : List Nat} (ht : p[t]? = some (.all members))
    (hdone : ∀ m ∈ members, w.settle.isDone m = true) : w.settle.isDone t = true := by
  have hlt : t < w.settle.tasks.length := h.settle.length ▸ (List.getElem?_eq_some_iff.1 ht).1
  have htask := List.getElem?_eq_getElem hlt
  have hallows := h.settle.allows htask ht
  generalize hstage : w.settle.tasks[t].stage = stage at hallows
  cases hallows with
  | gathering _ =>
    refine absurd ⟨_, htask, .inr ⟨_, _, hstage, fun m hm => ?_⟩⟩ (w.not_ready_settle t)
    exact hdone m (List.mem_append_right _ hm)
  | gathered _ => exact absurd ⟨_, htask, .inl ⟨_, _, hstage⟩⟩ (w.not_ready_settle t)
  | joined _ => exact World.isDone_iff.2 ⟨_, World.outcome?_eq_some_iff.2 ⟨_, htask, hstage⟩⟩

/-! ## The headline -/

theorem follows_start (events : List World.Event) : Follows (plan events) (World.start.run events) :=
  Follows.start.run events

theorem EarlierMembers.concat {p : List Origin} {origin : Origin} (hp : EarlierMembers p)
    (hnew : ∀ m ∈ origin.members, m < p.length) : EarlierMembers (p ++ [origin]) := by
  intro e he
  rw [List.zipIdx_append, List.mem_append] at he
  rcases he with hold | hlast
  · exact hp e hold
  · obtain rfl := List.mem_singleton.1 hlast
    rwa [Nat.zero_add]

/-- What is awaited by `World.await`: the outcome of a task for all of a list, if it has one, is
gathered from the members, and it has one if they are done. -/
theorem Follows.await_all {p : List Origin} {w : World} (h : Follows p w) (hp : EarlierMembers p)
    {t : Nat} {members : List Nat} (ht : p[t]? = some (.all members)) :
    (∀ w' o, w.await t = (w', some o) → Gathers p w' members o.failures) ∧
      ((∀ m ∈ members, (w.await t).1.isDone m = true) → ∃ o, (w.await t).2 = some o) := by
  constructor
  · intro w' o hawait
    obtain ⟨rfl, ho⟩ := Prod.mk.inj hawait
    exact h.settle.gathers hp ht ho
  · intro hdone
    exact World.isDone_iff.1 (h.isDone_settle ht hdone)

/-- **The headline.** Let a world be made by any events: tasks that are done, that run functions and
that are for all of a list of earlier tasks, and turns of their threads in any order.

* A task that is done stays so, with the same outcome, whatever happens later.
* The outcome is that of the plan: a function's value and failures, or for all of a list the
  failures under its members.
* A task for all of a list is done only when all members are, and has their failures in the order
  of the list; so has what awaiting it gives, and awaiting it gives an outcome if the members end.
* The same holds when a list of tasks is awaited together. -/
theorem whenAll_failures_in_order (events : List World.Event)
    (hplan : EarlierMembers (plan events)) :
    let w := World.start.run events
    (∀ later t o, w.outcome? t = some o → (w.run later).outcome? t = some o) ∧
    (∀ t o, w.outcome? t = some o → o = planned (plan events) t) ∧
    (∀ t members, (plan events)[t]? = some (.all members) →
      (∀ o, w.outcome? t = some o → Gathers (plan events) w members o.failures) ∧
      (∀ w' o, w.await t = (w', some o) → Gathers (plan events) w' members o.failures) ∧
      ((∀ m ∈ members, (w.await t).1.isDone m = true) → ∃ o, (w.await t).2 = some o)) ∧
    (∀ members, (∀ m ∈ members, m < w.tasks.length) →
      let (wAll, t) := w.whenAll members
      (∀ w' o, wAll.await t = (w', some o) →
        Gathers (plan events ++ [.all members]) w' members o.failures) ∧
      ((∀ m ∈ members, (wAll.await t).1.isDone m = true) → ∃ o, (wAll.await t).2 = some o)) := by
  intro w
  have hw : Follows (plan events) w := follows_start events
  refine ⟨fun later => World.keeps_run w later, fun t o ho => hw.outcome_eq_planned hplan ho,
    fun t members ht => ⟨fun o ho => hw.gathers hplan ht ho, hw.await_all hplan ht⟩,
    fun members hmembers => ?_⟩
  -- awaiting a list is one more event, and awaiting the task that it makes
  have hall : Follows (plan events ++ [.all members]) (w.whenAll members).1 :=
    hw.step (.whenAll members)
  have hnumber : (w.whenAll members).2 = (plan events).length := by
    rw [← hw.length]
    unfold World.whenAll
    split <;> rfl
  have hlast : (plan events ++ [.all members])[(w.whenAll members).2]? = some (.all members) := by
    rw [hnumber, List.getElem?_append_right (Nat.le_refl _), Nat.sub_self]
    rfl
  exact hall.await_all (hplan.concat (hw.length ▸ hmembers)) hlast

/-- A list in a list, with a task that stands in both and ends before those in front of it. -/
def nestedEvents : List World.Event :=
  [.launch 0 (.gate "go" (.returns "" [.error "first"])), .launch 0 (.panics "second"),
    .whenAll [0, 1], .addDone ⟨"", [.error "third"]⟩, .whenAll [], .whenAll [3, 2, 4, 1],
    .turn 1, .turn 5, .turn 1, .turn 2, .turn 1, .turn 5, .openGate "go", .turn 0, .turn 0, .turn 0,
    .turn 0, .turn 2, .turn 2, .turn 2, .turn 2, .turn 2, .turn 2, .turn 5, .turn 5, .turn 5,
    .turn 5, .turn 5, .turn 5, .turn 5, .turn 5, .turn 5]

theorem nested_failures_in_order :
    EarlierMembers (plan nestedEvents) ∧
    (World.start.run nestedEvents).outcome? 5
      = some ⟨"", [.error "third", .error "first", .panic "second", .panic "second"]⟩ ∧
    Gathers (plan nestedEvents) (World.start.run nestedEvents) [3, 2, 4, 1]
      [.error "third", .error "first", .panic "second", .panic "second"] :=
  ⟨by decide, by decide,
    ((whenAll_failures_in_order nestedEvents (by decide)).2.2.1 5 [3, 2, 4, 1] rfl).1
      ⟨"", [.error "third", .error "first", .panic "second", .panic "second"]⟩ (by decide)⟩

end AwaitLint.Tasks
