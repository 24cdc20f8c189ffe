import AwaitLint.Tasks.World

/-!
# AwaitLint — sessions with named tasks

A session gives names to the scopes and tasks of a world. A name that is given
again means the newer thing. A task that has a value is a future.
-/

namespace AwaitLint.Tasks

/-- What a name of a task stands for. -/
structure Handle where
  task : Nat
  isFuture : Bool
deriving DecidableEq, Repr

/-- A world with names. -/
structure Session where
  world : World
  scopes : List (String × Nat)
  handles : List (String × Handle)
deriving Repr

/-- A step of a session. Without a name, the scope is the one that is never
canceled. -/
inductive Step where
  /-- Makes a scope. -/
  | scope (name : String) (parent : Option String)
  /-- Cancels a scope. -/
  | cancel (name : String)
  /-- Opens a gate. -/
  | openGate (name : String)
  /-- Starts a function, as a task or as a future. -/
  | launch (name : String) (scope : Option String) (script : Script) (isFuture : Bool)
  /-- Makes a task that is done. -/
  | ended (name : String) (error : Option String)
  /-- Makes a future that is done. -/
  | ofValue (name : String) (value : String)
  /-- Awaits a task and makes one that has failed in the same way. -/
  | failedLike (name : String) (other : String)
  /-- Names the task of a future. -/
  | taskOf (name : String) (future : String)
  /-- Makes the task for all of a list. -/
  | whenAll (name : String) (members : List String)
  /-- Awaits a task or a future. -/
  | await (name : String)
  /-- Awaits all tasks of a list. -/
  | awaitAll (members : List String)
  /-- Asks whether a task is done. -/
  | isDone (name : String)
  /-- Lets a task go. -/
  | forget (name : String)
  /-- Cancels the scopes of a task. -/
  | terminate (name : String)
deriving Repr

/-- The answer to a step. -/
inductive Answer where
  | nothing
  | failures (found : List Failure)
  | outcome (found : Outcome)
  | bool (value : Bool)
  /-- The task that is awaited never ends. -/
  | stuck
  /-- The step speaks of something that has no name. -/
  | unknown
deriving DecidableEq, Repr

namespace Session

/-- The session without names. -/
def start : Session := { world := .start, scopes := [], handles := [] }

/-- The scope with a name. -/
def scope? (s : Session) : Option String → Option Nat
  | none => some World.root
  | some name => s.scopes.lookup name

/-- The handle with a name. -/
def handle? (s : Session) (name : String) : Option Handle := s.handles.lookup name

/-- The tasks with the names. -/
def tasks? (s : Session) (names : List String) : Option (List Nat) :=
  names.mapM fun name => (s.handle? name).map (·.task)

/-- Gives a name to a task of a new world. -/
def bind (s : Session) (name : String) (isFuture : Bool) (made : World × Nat) : Session :=
  { s with world := made.1, handles := (name, ⟨made.2, isFuture⟩) :: s.handles }

/-- The session and the answer after a step. -/
def run (s : Session) (step : Step) : Session × Answer :=
  (attempt step).getD (s, .unknown)
where
  /-- The session and the answer, if all names have a meaning. -/
  attempt : Step → Option (Session × Answer)
    | .scope name parent => do
      let (world, i) := s.world.addScope (← s.scope? parent)
      return ({ s with world, scopes := (name, i) :: s.scopes }, .nothing)
    | .cancel name => do
      let i ← s.scope? (some name)
      return ({ s with world := s.world.cancel [i] }, .nothing)
    | .openGate name => some ({ s with world := s.world.openGate name }, .nothing)
    | .launch name scope script isFuture => do
      let i ← s.scope? scope
      return (s.bind name isFuture (s.world.launch i script), .nothing)
    | .ended name error =>
      some (s.bind name false (s.world.addDone ⟨"", (error.map Failure.error).toList⟩), .nothing)
    | .ofValue name value => some (s.bind name true (s.world.addDone ⟨value, []⟩), .nothing)
    | .failedLike name other => do
      let h ← s.handle? other
      match s.world.await h.task with
      | (world, none) => return ({ s with world }, .stuck)
      | (world, some found) =>
        return (s.bind name false (world.addDone ⟨"", found.failures⟩), .nothing)
    | .taskOf name future => do
      let h ← s.handle? future
      return (s.bind name false (s.world, h.task), .nothing)
    | .whenAll name members => do
      let tasks ← s.tasks? members
      return (s.bind name false (s.world.whenAll tasks), .nothing)
    | .await name => do
      let h ← s.handle? name
      match s.world.await h.task with
      | (world, none) => return ({ s with world }, .stuck)
      | (world, some found) =>
        return ({ s with world }, if h.isFuture then .outcome found else .failures found.failures)
    | .awaitAll members => do
      let tasks ← s.tasks? members
      let (world, all) := s.world.whenAll tasks
      match world.await all with
      | (world, none) => return ({ s with world }, .stuck)
      | (world, some found) => return ({ s with world }, .failures found.failures)
    | .isDone name => do
      let h ← s.handle? name
      let world := s.world.settle
      return ({ s with world }, .bool (world.isDone h.task))
    | .forget name => do
      let _ ← s.handle? name
      return (s, .nothing)
    | .terminate name => do
      let h ← s.handle? name
      return ({ s with world := s.world.terminate h.task }, .nothing)

/-- The answers to steps one after another. -/
def runAll (s : Session) : List Step → List Answer
  | [] => []
  | step :: rest =>
    let (s, answer) := s.run step
    answer :: runAll s rest

end Session

end AwaitLint.Tasks
