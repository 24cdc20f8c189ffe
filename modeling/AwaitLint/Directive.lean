import AwaitLint.Text.Cut

/-!
# AwaitLint — suppression directives

A comment `//mustawait:ignore` silences checks on its own line and on the next:

```text
//mustawait:ignore
//mustawait:ignore mustawait
//mustawait:ignore mustawait,other - reason
//mustawait:ignore // trailing comment
```

* `Directive.names?` reads the names out of a comment; no names mean every check.
* `DirectiveMap` keeps one directive for a line, the last one read. The line that
  a place counts for need not be the one it stands on: a line directive in the
  text sets it. So what is on a line is asked by that line, and what comes first
  by the place.
* `DirectiveMap.suppress` answers whether a check is silenced on a line and
  charges the directive that did it, `DirectiveMap.unused` lists the directives
  and names that were charged with nothing.
-/

namespace AwaitLint

/-- A place in the text of a file; lines and columns count from one. -/
structure Position where
  line : Nat
  column : Nat
deriving DecidableEq, Repr

/-- Whether one place comes before another or is the same. -/
def Position.le (a b : Position) : Bool :=
  a.line < b.line || (a.line == b.line && a.column ≤ b.column)

/-- A comment of a file, with its slashes. -/
structure Comment where
  position : Position
  text : String
deriving DecidableEq, Repr

/-! ## Reading a directive -/

namespace Directive

/-- The word that makes a comment a directive. -/
def keyword : List Char := "mustawait:ignore".toList

/-- The name of the check for values that are not awaited. -/
def mustAwait : String := "mustawait"

/-- The names of all checks. -/
def allChecks : List String := [mustAwait]

/-- What follows the keyword of a directive; it is empty or starts with a space
or a tab. -/
def argument? (text : List Char) : Option (List Char) :=
  let inner := Text.trim (((['/', '/'].isPrefixOf? text)).getD text)
  match keyword.isPrefixOf? inner with
  | none => none
  | some [] => some []
  | some (c :: cs) => if c = ' ' || c = '\t' then some (c :: cs) else none

/-- The argument without a trailing comment, a reason and outer white space. A
reason starts at a dash that stands alone. -/
def withoutReason (argument : List Char) : List Char :=
  let bare := Text.trim (Text.before ['/', '/'] argument)
  Text.trim (Text.before [' ', '-', ' '] (' ' :: bare ++ [' ']))

/-- The names in a comma-separated list, blank ones dropped. -/
def splitNames (list : List Char) : List String :=
  (((list.splitOn ',').map Text.trim).filter fun part => !part.isEmpty).map String.ofList

/-- The names that a comment lists if it is a directive. -/
def names? (text : String) : Option (List String) :=
  (argument? text.toList).map fun argument =>
    let list := withoutReason argument
    if list = ['-'] then [] else splitNames list

end Directive

/-- A directive of a file and the checks it has been charged with. -/
structure Directive where
  /-- The line that its place counts for. -/
  line : Nat
  position : Position
  /-- The checks it silences; all of them if there is none. -/
  names : List String
  /-- The checks it has silenced. -/
  charged : List String := []
deriving DecidableEq, Repr

/-- Whether the directive silences a check. -/
def Directive.suppresses (d : Directive) (check : String) : Bool :=
  d.names.isEmpty || d.names.contains check

/-- Charges the directive with a check. -/
def Directive.charge (d : Directive) (check : String) : Directive :=
  { d with charged := if d.charged.contains check then d.charged else d.charged ++ [check] }

/-! ## The directives of a file -/

/-- The directives of a file, one for a line. -/
structure DirectiveMap where
  entries : List Directive := []
deriving DecidableEq, Repr

/-- A directive, or the part of one, that was charged with nothing. -/
structure UnusedDirective where
  position : Position
  /-- The names that silenced nothing; none if the directive has no names. -/
  names : List String
deriving DecidableEq, Repr

namespace DirectiveMap

/-- The directive on a line. -/
def at? (m : DirectiveMap) (line : Nat) : Option Directive :=
  m.entries.find? fun d => d.line == line

/-- Puts a directive on its line, in place of an earlier one. -/
def put (m : DirectiveMap) (d : Directive) : DirectiveMap :=
  ⟨(m.entries.filter fun e => e.line != d.line) ++ [d]⟩

/-- Takes in a comment, if it is a directive. -/
def read (lineAt : Position → Nat) (m : DirectiveMap) (c : Comment) : DirectiveMap :=
  match Directive.names? c.text with
  | some names => m.put { line := lineAt c.position, position := c.position, names }
  | none => m

/-- The directives among the comments of a file, where `lineAt` is the line that a
place counts for. -/
def build (lineAt : Position → Nat) (comments : List Comment) : DirectiveMap :=
  comments.foldl (read lineAt) {}

/-- The number of directives. -/
def size (m : DirectiveMap) : Nat := m.entries.length

/-- The lines whose directives cover a line, in the order of charging: the line
itself and the one above. -/
def covering : Nat → List Nat
  | 0 => [0]
  | n + 1 => [n + 1, n]

/-- The directive that silences a check on a line. -/
def suppressor? (m : DirectiveMap) (line : Nat) (check : String) : Option Directive :=
  (covering line).findSome? fun l => (m.at? l).filter fun d => d.suppresses check

/-- Whether a check is silenced on a line, and the directives with the one that
does it charged. -/
def suppress (m : DirectiveMap) (line : Nat) (check : String) : Bool × DirectiveMap :=
  match m.suppressor? line check with
  | some d => (true, m.put (d.charge check))
  | none => (false, m)

/-- What a directive was not charged with, given the checks that ran and whether
each is enabled. A directive without names is used if a check that ran was
charged to it; a name is used if its check is enabled and was charged. -/
def unusedOf? (enabled : List (String × Bool)) (d : Directive) : Option UnusedDirective :=
  if d.names.isEmpty then
    if enabled.any fun e => d.charged.contains e.1 then none else some ⟨d.position, []⟩
  else
    let names := d.names.filter fun n =>
      !(enabled.lookup n).getD false || !d.charged.contains n
    if names.isEmpty then none else some ⟨d.position, names⟩

/-- The directives and names that were charged with nothing, by their place in the
text. -/
def unused (m : DirectiveMap) (enabled : List (String × Bool)) : List UnusedDirective :=
  (m.entries.filterMap (unusedOf? enabled)).mergeSort fun a b => a.position.le b.position

end DirectiveMap

end AwaitLint
