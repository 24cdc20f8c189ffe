import AwaitLint.Measure
import AwaitLint.Tasks.Failure

/-!
# AwaitLint — tasks that run side by side

A `World` holds tasks, the scopes their functions run in, and the gates that are
open.

* Every task has a thread of its own, and `World.turn` lets one thread take one
  step: wait for a gate, a cancellation or another task, return, cancel a scope,
  or end. A thread that has to wait does nothing in its turn.
* `World.run` is what becomes of a world under a list of events. Turns may stand
  anywhere in the list, so every way in which threads interleave is such a list.
* `World.settle` takes turns until all threads wait or have ended.
-/

namespace AwaitLint.Tasks

/-! ## Scopes -/

/-- A scope that functions run in. Canceling it cancels the scopes below it. -/
structure Scope where
  parent : Option Nat
  canceled : Bool
deriving DecidableEq, Repr

/-- Whether the scope with the number is canceled. -/
def isCanceled (scopes : List Scope) (i : Nat) : Bool :=
  (scopes[i]?).any fun s => s.canceled

/-- Cancels the scopes with the given numbers and the scopes below them. A scope
comes after its parent. -/
def cancelScopes (which : List Nat) (scopes : List Scope) : List Scope :=
  scopes.foldl (fun before s =>
    let canceled := s.canceled || which.contains before.length
      || s.parent.any fun p => isCanceled before p
    before ++ [{ s with canceled }]) []

/-! ## Threads -/

/-- What a function does. -/
inductive Script where
  /-- Waits until a gate is open, then goes on. -/
  | gate (name : String) (rest : Script)
  /-- Waits until its scope is canceled and returns that as its error. -/
  | untilCanceled (value : String)
  /-- Panics. -/
  | panics (value : String)
  /-- Returns a value and an error, which is none if it has no failures. -/
  | returns (value : String) (failures : List Failure)
deriving DecidableEq, Repr

namespace Script

instance : Inhabited Script := ⟨returns "" []⟩

/-- The number of steps of a function. -/
def steps : Script → Nat
  | gate _ rest => rest.steps + 1
  | _ => 1

end Script

/-- What a thread has still to do. -/
inductive Stage where
  /-- It runs a function in a scope. -/
  | running (script : Script) (scope : Nat)
  /-- It awaits the members of a list in turn, with the failures found so far. -/
  | gathering (members : List Nat) (failures : List Failure)
  /-- It has the outcome, and cancels the scopes of the task one by one. -/
  | ending (outcome : Outcome) (scopes : List Nat)
  /-- The task is done. -/
  | done (outcome : Outcome)
deriving DecidableEq, Repr

namespace Stage

/-- The outcome of a task that is done. -/
def outcome? : Stage → Option Outcome
  | done outcome => some outcome
  | _ => none

end Stage

/-- A task: the scopes that end with it, and what its thread has still to do. -/
structure Task where
  scopes : List Nat
  stage : Stage
deriving DecidableEq, Repr

/-- The number of steps that the thread of a task has still to take. -/
def Task.steps (t : Task) : Nat :=
  match t.stage with
  | .running script _ => script.steps + t.scopes.length + 1
  | .gathering members _ => members.length + t.scopes.length + 2
  | .ending _ scopes => scopes.length + 1
  | .done _ => 0

/-! ## The world -/

/-- Scopes, open gates and tasks. Scopes and tasks are known by their numbers. -/
structure World where
  scopes : List Scope
  gates : List String
  tasks : List Task
deriving DecidableEq, Repr

namespace World

/-- The world with one scope that is never canceled, and nothing else. -/
def start : World := { scopes := [⟨none, false⟩], gates := [], tasks := [] }

/-- The number of the scope that is never canceled. -/
def root : Nat := 0

/-- The outcome of a task, if it is done. -/
def outcome? (w : World) (t : Nat) : Option Outcome := (w.tasks[t]?).bind fun s => s.stage.outcome?

/-- Whether a task is done. -/
def isDone (w : World) (t : Nat) : Bool := (w.outcome? t).isSome

/-- The failures of a task, if it is done. -/
def failures? (w : World) (t : Nat) : Option (List Failure) := (w.outcome? t).map (·.failures)

/-- Adds a scope below another. It is canceled if the other one is. -/
def addScope (w : World) (parent : Nat) : World × Nat :=
  ({ w with scopes := w.scopes ++ [⟨some parent, isCanceled w.scopes parent⟩] }, w.scopes.length)

/-- Cancels scopes. -/
def cancel (w : World) (scopes : List Nat) : World :=
  { w with scopes := cancelScopes scopes w.scopes }

/-- Opens a gate. -/
def openGate (w : World) (name : String) : World := { w with gates := name :: w.gates }

/-- Adds a task. -/
def addTask (w : World) (task : Task) : World × Nat :=
  ({ w with tasks := w.tasks ++ [task] }, w.tasks.length)

/-- Adds a task that runs a function in a scope of its own. -/
def launch (w : World) (parent : Nat) (script : Script) : World × Nat :=
  let (w, scope) := w.addScope parent
  w.addTask ⟨[scope], .running script scope⟩

/-- Adds a task that is done. -/
def addDone (w : World) (outcome : Outcome) : World × Nat := w.addTask ⟨[], .done outcome⟩

/-- The scopes of the tasks of a list. -/
def scopesOf (w : World) (members : List Nat) : List Nat :=
  members.flatMap fun m => (w.tasks[m]?).elim [] (·.scopes)

/-- Adds a task for all of a list, which ends when they have ended. The task for
none of them is done at once. -/
def whenAll (w : World) (members : List Nat) : World × Nat :=
  if members.isEmpty then w.addDone ⟨"", []⟩
  else w.addTask ⟨w.scopesOf members, .gathering members []⟩

/-- Cancels the scopes of a task without waiting for it. -/
def terminate (w : World) (t : Nat) : World := w.cancel (w.scopesOf [t])

/-! ## Turns -/

/-- The stage after a step of a thread; the same one if the thread has to wait. -/
def advance (w : World) (task : Task) : Stage :=
  match task.stage with
  | .running (.gate name rest) scope =>
    if w.gates.contains name then .running rest scope else task.stage
  | .running (.untilCanceled value) scope =>
    if isCanceled w.scopes scope then .ending ⟨value, [.canceled]⟩ task.scopes else task.stage
  | .running (.panics value) _ => .ending ⟨"", [.panic value]⟩ task.scopes
  | .running (.returns value failures) _ => .ending ⟨value, failures⟩ task.scopes
  | .gathering [] failures => .ending ⟨"", failures⟩ task.scopes
  | .gathering (m :: members) failures =>
    match w.failures? m with
    | some found => .gathering members (failures ++ found)
    | none => task.stage
  | .ending outcome (_ :: scopes) => .ending outcome scopes
  | .ending outcome [] => .done outcome
  | .done outcome => .done outcome

/-- Lets the thread of a task take a step. -/
def turn (w : World) (t : Nat) : World :=
  match w.tasks[t]? with
  | none => w
  | some task =>
    let moved := { w with tasks := w.tasks.set t { task with stage := w.advance task } }
    match task.stage with
    | .ending _ (scope :: _) => moved.cancel [scope]
    | _ => moved

/-- What can happen to a world: something is made, canceled or opened, or the
thread of a task takes a step. -/
inductive Event where
  | scope (parent : Nat)
  | cancel (scope : Nat)
  | openGate (name : String)
  | launch (parent : Nat) (script : Script)
  | addDone (outcome : Outcome)
  | whenAll (members : List Nat)
  | terminate (task : Nat)
  | turn (task : Nat)
deriving DecidableEq, Repr

/-- The world after an event. -/
def step (w : World) : Event → World
  | .scope parent => (w.addScope parent).1
  | .cancel scope => w.cancel [scope]
  | .openGate name => w.openGate name
  | .launch parent script => (w.launch parent script).1
  | .addDone outcome => (w.addDone outcome).1
  | .whenAll members => (w.whenAll members).1
  | .terminate task => w.terminate task
  | .turn task => w.turn task

/-- The world after events one after another. -/
def run (w : World) (events : List Event) : World := events.foldl step w

/-! ## Waiting -/

/-- The number of steps that all threads have still to take. -/
def steps (w : World) : Nat := total Task.steps w.tasks

/-- A turn for each thread. -/
def sweep (w : World) : World := w.run ((List.range w.tasks.length).map .turn)

/-- Takes turns until no thread can go on. -/
def settle (w : World) : World :=
  if w.sweep.steps < w.steps then settle w.sweep else w
termination_by w.steps

/-- Waits for a task: the world then, and the outcome unless the task never ends. -/
def await (w : World) (t : Nat) : World × Option Outcome :=
  let w := w.settle
  (w, w.outcome? t)

end World

end AwaitLint.Tasks
