import AwaitLint.Text.CharClass

/-!
# AwaitLint — cutting text

The cuts used by names, lists and directives, on lists of characters: removing
white space at both ends, dividing at the last occurrence of a character and at
the first occurrence of a word.
-/

namespace AwaitLint.Text

/-! ## White space at the ends -/

/-- Removes white space at the front. -/
def trimLeft (cs : List Char) : List Char := cs.dropWhile isBlank

/-- Removes white space at the back. -/
def trimRight (cs : List Char) : List Char := (trimLeft cs.reverse).reverse

/-- Removes white space at both ends. -/
def trim (cs : List Char) : List Char := trimRight (trimLeft cs)

/-! ## Cuts -/

/-- What stands before and after the last `c`, if there is one. -/
def cutLast (c : Char) : List Char → Option (List Char × List Char)
  | [] => none
  | x :: xs =>
    match cutLast c xs with
    | some (before, after) => some (x :: before, after)
    | none => if x = c then some ([], xs) else none

/-- What stands before and after the first occurrence of `word`, if there is one. -/
def cutFirst (word : List Char) : List Char → Option (List Char × List Char)
  | [] => if word.isEmpty then some ([], []) else none
  | x :: xs =>
    match word.isPrefixOf? (x :: xs) with
    | some after => some ([], after)
    | none => (cutFirst word xs).map fun (before, after) => (x :: before, after)

/-- What stands before the first occurrence of `word`, or the whole text. -/
def before (word cs : List Char) : List Char :=
  match cutFirst word cs with
  | some (front, _) => front
  | none => cs

end AwaitLint.Text
