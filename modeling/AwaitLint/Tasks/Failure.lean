/-!
# AwaitLint — how tasks fail

The error of a task is the list of its single failures, in order; a task without
failures succeeded. Combining errors is appending the lists, so combined errors
never nest.
-/

namespace AwaitLint.Tasks

/-- A single failure of a task. -/
inductive Failure where
  /-- The function returned an error. -/
  | error (text : String)
  /-- The function panicked with a value that prints so. -/
  | panic (value : String)
  /-- The function gave up because its scope was canceled. -/
  | canceled
deriving DecidableEq, Repr

/-- The text of a failure. -/
def Failure.text : Failure → String
  | error text => text
  | panic value => "task panicked: " ++ value
  | canceled => "context canceled"

/-- The text of an error: its failures on one line. -/
def errorText (failures : List Failure) : String :=
  "; ".intercalate (failures.map Failure.text)

/-- Whether a panic is among the failures. -/
def hasPanic (failures : List Failure) : Bool :=
  failures.any fun
    | .panic _ => true
    | _ => false

/-- Whether a cancellation is among the failures. -/
def hasCancel (failures : List Failure) : Bool := failures.contains .canceled

/-- What a task ends with: the value of its function, and its failures. A
function that panics has no value, and the empty text stands for it. -/
structure Outcome where
  value : String
  failures : List Failure
deriving DecidableEq, Repr

end AwaitLint.Tasks
