import AwaitLint.Text.Cut
import AwaitLint.Text.Identifier
import AwaitLint.Text.Quoted

/-!
# AwaitLint — names of tracked types and lists of names

A tracked type is written `pkg/path.Name`. `TypeName.ofText?` divides the text
at its last dot; `TypeName.denotes` accepts the same package path and the paths
of its later major versions, `pkg/path/v2` and so on. `NameList` is a list as it
stands in a configuration, where a list that was never given differs from an
empty one.
-/

namespace AwaitLint

/-- The qualified name of a type. -/
structure TypeName where
  /-- The import path of its package. -/
  pkg : String
  name : String
deriving DecidableEq, Repr

namespace TypeName

/-- The written form. -/
def text (n : TypeName) : String := n.pkg ++ "." ++ n.name

/-- Reads a qualified name, white space around it being ignored: a path that is
not empty and does not end in a slash, a dot and an identifier. -/
def ofText? (s : String) : Option TypeName :=
  match Text.cutLast '.' (Text.trim s.toList) with
  | none => none
  | some (pkg, name) =>
    if pkg.isEmpty || pkg.getLast? = some '/' || !Text.isIdentifier (String.ofList name) then none
    else some ⟨String.ofList pkg, String.ofList name⟩

/-- The complaint about a text that is no qualified name. -/
def malformed (s : String) : String :=
  Text.quote (String.ofList (Text.trim s.toList)) ++ ": type name must be of the form pkg/path.Name"

/-- Whether `path` is the package path `pkg` or one of its major versions. -/
def samePackage (pkg path : List Char) : Bool :=
  path == pkg ||
    match (pkg ++ ['/', 'v']).isPrefixOf? path with
    | none => false
    | some version => !version.isEmpty && version.all fun c => '0' ≤ c && c ≤ '9'

/-- Whether a qualified name denotes the type. -/
def denotes (n : TypeName) (qualified : String) : Bool :=
  match Text.cutLast '.' qualified.toList with
  | none => false
  | some (path, name) => samePackage n.pkg.toList path && name == n.name.toList

end TypeName

/-- A list of names in a configuration; `none` if it was never given. -/
abbrev NameList := Option (List String)

namespace NameList

/-- The names of the list. -/
def entries (l : NameList) : List String := l.getD []

/-- Reads a comma-separated list. Entries are trimmed and blank ones dropped;
the empty text gives no list at all. -/
def ofText (s : String) : NameList :=
  if s.isEmpty then none
  else
    some ((((s.toList.splitOn ',').map Text.trim).filter fun part => !part.isEmpty).map String.ofList)

end NameList

end AwaitLint
