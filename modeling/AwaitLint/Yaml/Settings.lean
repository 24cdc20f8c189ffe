import AwaitLint.Config.File
import AwaitLint.Yaml.Document

/-!
# AwaitLint — settings in YAML

A reader of configuration files for the documents that `Yaml.read` knows; anchors and
aliases, explicit tags and block scalars are not among them. The document is a mapping
from settings to lists of names. Unknown keys are ignored, a null list counts as not
given, and null items are left out. Under its merge key a document gives settings for
those that it does not name itself. A value of another form is a `Mismatch`; all of
them are reported together.
-/

namespace AwaitLint.Yaml

/-- A fault in the form of a file. -/
inductive Mismatch where
  /-- A value of the wrong form. -/
  | wrongForm (line : Nat) (found : Tag) (text : String) (wanted : String)
  /-- A key that an earlier line has already. -/
  | repeatedKey (line : Nat) (key : String) (earlier : Nat)
deriving DecidableEq, Repr

/-- The first `n` bytes of a text; bytes of a character that is cut in two are
replaced one by one. -/
def clip : Nat → List Char → List Char
  | _, [] => []
  | n, c :: cs =>
    if c.utf8Size ≤ n then c :: clip (n - c.utf8Size) cs
    else List.replicate n (Char.ofNat 0xfffd)

/-- The text of a scalar as it is quoted in a fault, long ones being cut. -/
def excerpt (s : String) : String :=
  if s.utf8ByteSize > 10 then " `" ++ String.ofList (clip 7 s.toList) ++ "...`"
  else " `" ++ s ++ "`"

/-- The text of a fault. -/
def Mismatch.message : Mismatch → String
  | .wrongForm line found text wanted =>
    let shown := if found = .seq || found = .map then "" else excerpt text
    "line " ++ toString line ++ ": cannot unmarshal " ++ found.text ++ shown ++ " into " ++ wanted
  | .repeatedKey line key earlier =>
    "line " ++ toString line ++ ": mapping key " ++ Text.quote key ++ " already defined at line "
      ++ toString earlier

/-- The fault of a value that should have been something else. -/
def Mismatch.of (v : Value) (wanted : String) : Mismatch :=
  .wrongForm v.line v.tag v.text wanted

/-! ## Values -/

/-- The faults of keys that stand in a mapping before. -/
def repeatedKeys (entries : Entries) : List Mismatch :=
  entries.repeated.map fun (earlier, later) => .repeatedKey later.line later.text earlier.line

/-- The names of an item: its text, or nothing if it is null. -/
def readItem (v : Value) : List String × List Mismatch :=
  match v with
  | .scalar _ _ text => if v.isNull then ([], []) else ([text], [])
  | .map _ entries =>
    let repeated := repeatedKeys entries
    ([], if repeated.isEmpty then [.of v "string"] else repeated)
  | .seq _ _ => ([], [.of v "string"])

/-- The list of a setting, with its faults. -/
def readList (v : Value) : NameList × List Mismatch :=
  match v with
  | .seq _ items =>
    let read := items.map readItem
    (some (read.flatMap Prod.fst), read.flatMap Prod.snd)
  | .map _ entries =>
    let repeated := repeatedKeys entries
    (none, if repeated.isEmpty then [.of v "[]string"] else repeated)
  | .scalar _ _ _ => (none, if v.isNull then [] else [.of v "[]string"])

/-- What was read of a document so far. -/
structure Settings where
  lists : List (Config.Key × NameList) := []
  faults : List Mismatch := []
  /-- The keys that were met. -/
  seen : List String := []

/-- Takes in one entry of a document, unless its key was met before. -/
def Settings.entry (s : Settings) (entry : Value × Value) : Settings :=
  if entry.1.isMerge then s
  else
    match readItem entry.1 with
    | ([], found) => { s with faults := s.faults ++ found }
    | (name :: _, _) =>
      let met := { s with seen := name :: s.seen }
      match Config.Key.ofFileKey? name with
      | none => met
      | some key =>
        if s.seen.contains name then s
        else
          let (list, found) := readList entry.2
          { met with lists := s.lists ++ [(key, list)], faults := s.faults ++ found }

/-- Takes in the entries of one mapping. -/
def Settings.layer (s : Settings) (entries : Entries) : Settings :=
  let repeated := repeatedKeys entries
  if repeated.isEmpty then entries.foldl Settings.entry s
  else { s with faults := s.faults ++ repeated }

/-- The settings of a document and its faults; `none` if its merge key stands for something
else than mappings. -/
def Settings.ofDocument (document : Option Value) : Option Settings :=
  match document with
  | none => some {}
  | some (.map line entries) =>
    (layers? (.map line entries)).map fun layers => layers.foldl Settings.layer {}
  | some v => some { faults := if v.isNull then [] else [.of v "config.Config"] }

/-- The settings in the text of a file. -/
def readSettings : Config.Reader := fun text =>
  match read text with
  | .error _ => .error .malformed
  | .ok document =>
    match Settings.ofDocument document with
    | none => .error .malformed
    | some ⟨lists, [], _⟩ => .ok lists
    | some ⟨_, faults, _⟩ => .error (.mistyped (faults.map Mismatch.message))

end AwaitLint.Yaml
