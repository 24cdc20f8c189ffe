import AwaitLint.Config

/-!
# AwaitLint — calls on a configuration

A configuration is used by calls one after another. Settings are replaced by name, or their lists
are put in place directly; the settings are checked; types are asked about. `Config.call` gives the
configuration after a call together with the answer, and a call that fails leaves the configuration
as it was.
-/

namespace AwaitLint.Config

/-- A call on a configuration. -/
inductive Call where
  /-- Replaces the list under the setting with the name `key` by a comma-separated one. -/
  | set (key value : String)
  /-- Puts a list in place, past the calls that keep the remembered names up to date. -/
  | assign (key : Key) (list : NameList)
  | validate
  | tracks (t : ValueType)
  | isList (t : ValueType)
deriving Repr

/-- The answer to a call. -/
inductive Answer where
  | done
  | bool (value : Bool)
  /-- No setting has the name. -/
  | unknownKey (key : String)
  /-- The settings are at fault. -/
  | invalid (problems : List Problem)
deriving DecidableEq, Repr

/-- Whether the call failed. -/
def Answer.isFailure : Answer → Bool
  | done | bool _ => false
  | unknownKey _ | invalid _ => true

/-- The configuration after a call, and the answer. -/
def call (c : Config) : Call → Config × Answer
  | .set key value =>
    match c.set? key value with
    | some next => (next, .done)
    | none => (c, .unknownKey key)
  | .assign key list => (c.assign key list, .done)
  | .validate =>
    match c.validate with
    | .ok next => (next, .done)
    | .error problems => (c, .invalid problems)
  | .tracks t => (c.afterTracks t, .bool (c.tracks t))
  | .isList t => (c.afterIsList t, .bool (c.isList t))

/-- The configuration after calls one after another. -/
def afterCalls (c : Config) (calls : List Call) : Config := calls.foldl (fun c x => (c.call x).1) c

/-- The answers to calls one after another. -/
def answers (c : Config) : List Call → List Answer
  | [] => []
  | x :: rest => (c.call x).2 :: answers (c.call x).1 rest

end AwaitLint.Config
