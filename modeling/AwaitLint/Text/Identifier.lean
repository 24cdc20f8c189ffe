import AwaitLint.Text.CharClass

/-!
# AwaitLint — identifiers

An identifier of Go source is a letter or underscore followed by letters,
underscores and decimal digits, and none of the twenty-five keywords.
-/

namespace AwaitLint.Text

/-- The words that are no identifiers. -/
def keywords : List String :=
  ["break", "case", "chan", "const", "continue", "default", "defer", "else", "fallthrough",
   "for", "func", "go", "goto", "if", "import", "interface", "map", "package", "range",
   "return", "select", "struct", "switch", "type", "var"]

/-- Whether an identifier may start with the character. -/
def startsIdentifier (c : Char) : Bool := isLetter c || c == '_'

/-- Whether an identifier may go on with the character. -/
def continuesIdentifier (c : Char) : Bool := startsIdentifier c || isDigit c

/-- Whether the text is an identifier. -/
def isIdentifier (s : String) : Bool :=
  !keywords.contains s &&
    match s.toList with
    | [] => false
    | c :: cs => startsIdentifier c && cs.all continuesIdentifier

end AwaitLint.Text
