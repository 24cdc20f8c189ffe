import AwaitLint.Yaml.Cursor
import AwaitLint.Yaml.Number

/-!
# AwaitLint — the text of YAML scalars

A scalar may go on over several lines, whose breaks are folded. `Yaml.Gap` holds
the white space since the last character of a scalar, and says what it counts for
once another one follows. `plainText` and `quotedText` read the text of a scalar.
-/

namespace AwaitLint.Yaml

/-! ## Gaps -/

/-- The white space since the last character of a scalar, last character first. -/
inductive Gap where
  /-- Blanks on one line. -/
  | inLine (pads : List Char)
  /-- A line break and those after it; the first is `none` if it was escaped. -/
  | overLines (first : Option Char) (more : List Char)

namespace Gap

/-- No white space. -/
def empty : Gap := inLine []

/-- Whether there is no white space. -/
def isEmpty : Gap → Bool
  | inLine pads => pads.isEmpty
  | overLines _ _ => false

/-- Whether there is a line break. -/
def hasBreak : Gap → Bool
  | inLine _ => false
  | overLines _ _ => true

/-- A blank more; those around line breaks are dropped. -/
def pad (c : Char) : Gap → Gap
  | inLine pads => inLine (c :: pads)
  | overLines first more => overLines first more

/-- A line break more; blanks before it are dropped. -/
def lineBreak (c : Char) : Gap → Gap
  | inLine _ => overLines (some (kept c)) []
  | overLines first more => overLines first (kept c :: more)
where
  /-- How a break is kept: only separators of lines and paragraphs stay apart. -/
  kept (c : Char) : Char := if c.toNat = 0x85 then '\n' else c

/-- Puts what a gap counts for behind a text whose last character comes first. A
single line break counts as a space, and of several the first is dropped. -/
def appendTo (text : List Char) : Gap → List Char
  | inLine pads => pads ++ text
  | overLines none more => more ++ text
  | overLines (some first) more =>
    if first ≠ '\n' then more ++ first :: text
    else if more.isEmpty then ' ' :: text
    else more ++ text

end Gap

/-! ## Plain scalars -/

/-- Whether a plain scalar ends before the text. Its further lines stand in
column `indent` or further right. -/
def endsPlain (flow : Bool) (indent : Nat) (gap : Gap) (p : Place) (c : Char) (cs : List Char) :
    Bool :=
  (!gap.isEmpty && ((!flow && p.column < indent) || p.atMarker (c :: cs) || c = '#'))
    || (c = ':' && endsWord cs)
    || (flow && [',', '?', '[', ']', '\x7b', '\x7d'].contains c)

/-- The text of a plain scalar behind `text`, the cursor after it and the gap
before the cursor. -/
def plainText (flow : Bool) (indent : Nat) :
    List Char → Place → (text : List Char) → Gap → Option (List Char × Cursor × Gap)
  | [], p, text, gap => some (text.reverse, ⟨[], p⟩, gap)
  | c :: cs, p, text, gap =>
    if isBreak c then plainText flow indent cs p.newLine text (gap.lineBreak c)
    else if isPad c then
      if c = '\t' && gap.hasBreak && p.column < indent then none
      else plainText flow indent cs p.next text (gap.pad c)
    else if c = unreadable then none
    else if endsPlain flow indent gap p c cs then some (text.reverse, ⟨c :: cs, p⟩, gap)
    else plainText flow indent cs p.next (c :: gap.appendTo text) .empty

/-! ## Quoted scalars -/

/-- The character of an escape that has no digits. -/
def escaped (c : Char) : Option Char :=
  match c with
  | '0' => some (Char.ofNat 0)
  | 'a' => some (Char.ofNat 0x07)
  | 'b' => some (Char.ofNat 0x08)
  | 't' | '\t' => some '\t'
  | 'n' => some '\n'
  | 'v' => some (Char.ofNat 0x0b)
  | 'f' => some (Char.ofNat 0x0c)
  | 'r' => some '\r'
  | 'e' => some (Char.ofNat 0x1b)
  | ' ' => some ' '
  | '"' => some '"'
  | '\'' => some '\''
  | '\\' => some '\\'
  | 'N' => some (Char.ofNat 0x85)
  | '_' => some (Char.ofNat 0xa0)
  | 'L' => some (Char.ofNat 0x2028)
  | 'P' => some (Char.ofNat 0x2029)
  | _ => none

/-- The number of digits of an escape. -/
def escapeWidth (c : Char) : Nat :=
  match c with
  | 'x' => 2
  | 'u' => 4
  | 'U' => 8
  | _ => 0

/-- The character with the hexadecimal code at the head of the text. -/
def codeChar? (width : Nat) (cs : List Char) : Option Char :=
  if cs.length < width then none
  else
    match ofDigits? 16 (cs.take width) with
    | none => none
    | some code =>
      if (0xD800 ≤ code && code ≤ 0xDFFF) || 0x10FFFF < code then none
      else some (Char.ofNat code)

/-- The character that the text after a backslash stands for, given the first
character of that text and the rest. -/
def escape? (c : Char) (cs : List Char) : Option Char :=
  if escapeWidth c = 0 then escaped c else codeChar? (escapeWidth c) cs

/-- The text of a quoted scalar behind `text`, and the cursor after it. A
document marker may not stand in it. -/
def quotedText (double : Bool) :
    List Char → Place → (text : List Char) → Gap → Option (List Char × Cursor)
  | [], _, _, _ => none
  | c :: cs, p, text, gap =>
    if isBreak c then quotedText double cs p.newLine text (gap.lineBreak c)
    else if isPad c then quotedText double cs p.next text (gap.pad c)
    else if c = unreadable || (!gap.isEmpty && p.atMarker (c :: cs)) then none
    else
      let text := gap.appendTo text
      if c = (if double then '"' else '\'') then
        match double, cs with
        | false, '\'' :: rest => quotedText double rest p.next.next ('\'' :: text) .empty
        | _, _ => some (text.reverse, ⟨cs, p.next⟩)
      else if double && c = '\\' then
        match cs with
        | [] => none
        | e :: rest =>
          if isBreak e then quotedText double rest p.next.newLine text (.overLines none [])
          else
            match escape? e rest with
            | none => none
            | some ch =>
              let after := Cursor.skip ⟨cs, p.next⟩ (escapeWidth e + 1)
              quotedText double (rest.drop (escapeWidth e)) after.place (ch :: text) .empty
      else quotedText double cs p.next (c :: text) .empty
termination_by cs => cs.length
decreasing_by all_goals simp only [List.length_cons, List.length_drop]; omega

end AwaitLint.Yaml
