import AwaitLint.Config

/-!
# AwaitLint — loading a configuration

A run starts from the defaults. A configuration file replaces the lists of the settings
that it gives, and so does every setting that is given a text; the others keep their
default. What the text of a file says is left to a `Reader`, which everything here takes
as a parameter: it may change lists, and nothing else of a configuration.
-/

namespace AwaitLint.Config

/-- Why the text of a file gives no settings. -/
inductive ReadError where
  /-- The text is not in the format of the file. -/
  | malformed
  /-- Values are of the wrong form, with a text for each of them. -/
  | mistyped (complaints : List String)
deriving DecidableEq, Repr

/-- Reads the text of a file: the lists that it gives, in the order in which they are put
in place. -/
abbrev Reader := String → Except ReadError (List (Key × NameList))

/-- Why a configuration cannot be used. -/
inductive LoadError where
  /-- There is no file with the path. -/
  | noFile (path : String)
  /-- The text of the file gives no settings. -/
  | unreadable (cause : ReadError)
  /-- The settings are not valid. -/
  | invalid (problems : List Problem)

/-- The text of a missing file. -/
def noFileMessage (path : String) : String :=
  "reading config: open " ++ path ++ ": no such file or directory"

/-- The defaults with lists put in their place. -/
def ofLists (lists : List (Key × NameList)) : Config :=
  lists.foldl (fun c given => c.assign given.1 given.2) default

/-- The configuration in the text of a file. -/
def ofFile (read : Reader) (text : String) : Except LoadError Config :=
  match read text with
  | .error cause => .error (.unreadable cause)
  | .ok lists => .ok (ofLists lists)

/-- Where a run takes its configuration file from. -/
inductive FileSource where
  | none
  /-- A path at which there is no file. -/
  | missing (path : String)
  | content (text : String)

/-- The configuration of a run: the defaults or the file, with each setting that
is given a text replaced, and found valid. -/
def ofRun (read : Reader) (file : FileSource) (overrides : List (Key × String)) :
    Except LoadError Config := do
  let base ← match file with
    | .none => .ok default
    | .missing path => .error (.noFile path)
    | .content text => ofFile read text
  let given := overrides.filter fun o => !o.2.isEmpty
  match (given.foldl (fun c (key, value) => c.setKey key value) base).validate with
  | .ok c => .ok c
  | .error problems => .error (.invalid problems)

end AwaitLint.Config
