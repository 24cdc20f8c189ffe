import AwaitLint.Yaml.Number
import AwaitLint.Yaml.Timestamp

/-!
# AwaitLint — kinds of YAML values

`Yaml.Tag.ofPlain` tells what an unquoted scalar stands for. A few words have a
meaning of their own; otherwise the first character says what the text may be.
-/

namespace AwaitLint.Yaml

/-- The kinds of values. -/
inductive Tag where
  | null
  | bool
  | int
  | float
  | timestamp
  /-- The key under which a mapping takes in other mappings. -/
  | merge
  | str
  | seq
  | map
deriving DecidableEq, Repr

namespace Tag

/-- The written form. -/
def text : Tag → String
  | null => "!!null"
  | bool => "!!bool"
  | int => "!!int"
  | float => "!!float"
  | timestamp => "!!timestamp"
  | merge => "!!merge"
  | str => "!!str"
  | seq => "!!seq"
  | map => "!!map"

/-- What a text that starts with a digit or a sign stands for. -/
def ofNumeral (cs : List Char) : Tag :=
  if isTimestamp cs then timestamp
  else if isInt cs then int
  else if isFloat cs then float
  else str

/-- What an unquoted scalar stands for. -/
def ofPlain (s : String) : Tag :=
  if ["", "~", "null", "Null", "NULL"].contains s then null
  else if ["true", "True", "TRUE", "false", "False", "FALSE"].contains s then bool
  else if [".nan", ".NaN", ".NAN", ".inf", ".Inf", ".INF", "+.inf", "+.Inf", "+.INF", "-.inf",
      "-.Inf", "-.INF"].contains s then float
  else if s = "<<" then merge
  else
    match s.toList with
    | [] => null
    | c :: cs =>
      if c = '.' then if isPointFloat (c :: cs) then float else str
      else if c.isDigit || c = '+' || c = '-' then ofNumeral (c :: cs)
      else str

end Tag

end AwaitLint.Yaml
