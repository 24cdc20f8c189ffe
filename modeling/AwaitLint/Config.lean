import AwaitLint.Config.TypeName
import AwaitLint.ValueType

/-!
# AwaitLint — configuration

Six lists of names tell which types are tracked and which calls consume their
values. The parsed names of tracked types are remembered:

* `Config.tracks` answers from the remembered names, or parses the current list
  if nothing is remembered;
* `Config.afterTracks` is the configuration after such a question;
* `Config.set` forgets them when the tracked types change, `Config.assign`
  does not;
* `Config.validate` lists every problem, and remembers the names if there is none;
  `Config.validateIn` goes through the settings in any order.
-/

namespace AwaitLint

/-- The settings of a configuration. -/
inductive Config.Key where
  | trackedTypes
  | sinks
  | excluded
  | awaitMethods
  | bulkAwait
  | addMethods
deriving DecidableEq, Repr

namespace Config.Key

/-- All settings, in the order in which they are read. -/
def all : List Key := [trackedTypes, sinks, excluded, awaitMethods, bulkAwait, addMethods]

/-- The name of the setting on the command line. -/
def flag : Key → String
  | trackedTypes => "tracked-types"
  | sinks => "sinks"
  | excluded => "excluded"
  | awaitMethods => "await-methods"
  | bulkAwait => "bulk-await"
  | addMethods => "add-methods"

/-- The name of the setting in a configuration file. -/
def fileKey : Key → String
  | trackedTypes => "tracked_types"
  | sinks => "sinks"
  | excluded => "excluded"
  | awaitMethods => "await_methods"
  | bulkAwait => "bulk_await"
  | addMethods => "add_methods"

/-- The setting with a name on the command line. -/
def ofFlag? (s : String) : Option Key := all.find? fun k => k.flag == s

/-- The setting with a name in a configuration file. -/
def ofFileKey? (s : String) : Option Key := all.find? fun k => k.fileKey == s

end Config.Key

/-- What is tracked and which calls consume it. -/
structure Config where
  /-- Qualified names of the types of asynchronous values. -/
  trackedTypes : NameList := none
  /-- Methods that discard a tracked value on purpose. -/
  sinks : NameList := none
  /-- Functions whose results are complete already. -/
  excluded : NameList := none
  /-- Methods that await a tracked value. -/
  awaitMethods : NameList := none
  /-- Functions that combine tracked values into one. -/
  bulkAwait : NameList := none
  /-- Calls that append an item to a list. -/
  addMethods : NameList := none
  /-- Remembered names of tracked types; empty while nothing is remembered. -/
  parsed : List TypeName := []
deriving Repr

/-- A fault of a configuration. -/
inductive Config.Problem where
  | noTrackedTypes
  /-- An entry of the tracked types that is no qualified name. -/
  | malformedType (text : String)
  | noAwaitMethods
  /-- An entry of another setting that is no identifier. -/
  | malformedName (key : Config.Key) (name : String)
deriving DecidableEq, Repr

/-- The text of a problem. -/
def Config.Problem.message : Config.Problem → String
  | .noTrackedTypes => "no tracked types configured"
  | .malformedType text => TypeName.malformed text
  | .noAwaitMethods => "no await methods configured"
  | .malformedName key name => key.flag ++ ": " ++ Text.quote name ++ ": not a valid Go identifier"

namespace Config

/-- The settings for the bundled task library. -/
def default : Config where
  trackedTypes :=
    some ["github.com/mpyw/mustawait/future.Task", "github.com/mpyw/mustawait/future.Future"]
  sinks := some ["Forget", "Terminate"]
  excluded := some ["FromResult", "Completed", "Failed"]
  awaitMethods := some ["Await"]
  bulkAwait := some ["WhenAll"]
  addMethods := some ["append", "Add", "Insert"]

/-! ## Settings -/

/-- The list under a key. -/
def get (c : Config) : Key → NameList
  | .trackedTypes => c.trackedTypes
  | .sinks => c.sinks
  | .excluded => c.excluded
  | .awaitMethods => c.awaitMethods
  | .bulkAwait => c.bulkAwait
  | .addMethods => c.addMethods

/-- Replaces the list under a key and keeps the remembered names. -/
def assign (c : Config) (key : Key) (list : NameList) : Config :=
  match key with
  | .trackedTypes => { c with trackedTypes := list }
  | .sinks => { c with sinks := list }
  | .excluded => { c with excluded := list }
  | .awaitMethods => { c with awaitMethods := list }
  | .bulkAwait => { c with bulkAwait := list }
  | .addMethods => { c with addMethods := list }

/-- Forgets the names of tracked types. -/
def forget (c : Config) : Config := { c with parsed := [] }

/-- Replaces the list under a key by a comma-separated one. -/
def setKey (c : Config) (key : Key) (value : String) : Config :=
  let next := c.assign key (NameList.ofText value)
  if key = .trackedTypes then next.forget else next

/-- The complaint about a setting that does not exist. -/
def unknownKey (key : String) : String := Text.quote key ++ ": unknown configuration key"

/-- Replaces the list under the setting with the name `key`; `none` if there is
no such setting. -/
def set? (c : Config) (key value : String) : Option Config :=
  (Key.ofFlag? key).map fun k => c.setKey k value

@[simp] theorem get_assign_self (c : Config) (key : Key) (list : NameList) :
    (c.assign key list).get key = list := by
  cases key <;> rfl

theorem get_assign_of_ne (c : Config) {key other : Key} (list : NameList) (h : other ≠ key) :
    (c.assign key list).get other = c.get other := by
  cases key <;> cases other <;> first | rfl | exact absurd rfl h

/-! ## Tracked types -/

/-- The entries of the tracked types that are qualified names. -/
def parseTracked (c : Config) : List TypeName :=
  c.trackedTypes.entries.filterMap TypeName.ofText?

/-- The names of tracked types that questions are answered from. -/
def trackedNames (c : Config) : List TypeName :=
  if c.parsed.isEmpty then c.parseTracked else c.parsed

/-- Whether a value of the type, or a component of it, is tracked. -/
def tracks (c : Config) (t : ValueType) : Bool :=
  t.names.any fun n => c.trackedNames.any fun tracked => tracked.denotes n

/-- Whether the type is a list of tracked values. -/
def isList (c : Config) (t : ValueType) : Bool :=
  match t.elem with
  | some e => c.tracks e
  | none => false

/-- The configuration after asking `tracks`: a type with a name makes it
remember the parsed names. -/
def afterTracks (c : Config) (t : ValueType) : Config :=
  if t.names.isEmpty then c else { c with parsed := c.trackedNames }

/-- The configuration after asking `isList`. -/
def afterIsList (c : Config) (t : ValueType) : Config :=
  match t.elem with
  | some e => c.afterTracks e
  | none => c

/-! ## Names of calls -/

/-- Whether the call discards a tracked value. -/
def isSink (c : Config) (name : String) : Bool := c.sinks.entries.contains name

/-- Whether results of the call are never reported. -/
def isExcluded (c : Config) (name : String) : Bool := c.excluded.entries.contains name

/-- Whether the method awaits its receiver. -/
def isAwaitMethod (c : Config) (name : String) : Bool := c.awaitMethods.entries.contains name

/-- Whether the call combines tracked values into one. -/
def isBulkAwait (c : Config) (name : String) : Bool := c.bulkAwait.entries.contains name

/-- Whether the call appends an item to a list. -/
def isAddMethod (c : Config) (name : String) : Bool := c.addMethods.entries.contains name

/-! ## Validation -/

/-- The settings that hold plain identifiers. -/
def nameKeys : List Key := [.sinks, .excluded, .awaitMethods, .bulkAwait, .addMethods]

/-- The entries of a setting that are no identifiers. -/
def malformedNames (c : Config) (key : Key) : List Problem :=
  ((c.get key).entries.filter fun name => !Text.isIdentifier name).map (.malformedName key)

/-- Every problem of the configuration, found by going through the settings of
plain identifiers in the given order. -/
def problemsIn (c : Config) (order : List Key) : List Problem :=
  (if c.trackedTypes.entries.isEmpty then [.noTrackedTypes] else [])
    ++ (c.trackedTypes.entries.filter fun s => (TypeName.ofText? s).isNone).map .malformedType
    ++ (if c.awaitMethods.entries.isEmpty then [.noAwaitMethods] else [])
    ++ order.flatMap c.malformedNames

/-- Checks all settings. A valid configuration remembers its tracked names. -/
def validateIn (c : Config) (order : List Key) : Except (List Problem) Config :=
  let found := c.problemsIn order
  if found.isEmpty then .ok { c with parsed := c.parseTracked } else .error found

/-- Every problem of the configuration. -/
def problems (c : Config) : List Problem := c.problemsIn nameKeys

/-- Checks all settings, in the order in which they are listed. -/
def validate (c : Config) : Except (List Problem) Config := c.validateIn nameKeys

theorem validate_eq (c : Config) :
    c.validate = if c.problems.isEmpty then .ok { c with parsed := c.parseTracked }
      else .error c.problems := rfl

end Config

end AwaitLint
