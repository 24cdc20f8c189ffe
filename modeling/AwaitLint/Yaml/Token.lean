import AwaitLint.Yaml.Scalar

/-!
# AwaitLint — tokens of a YAML text

`Yaml.Tokens` holds a text that is being divided into tokens. A token is handed
out only when the two behind it are known, and when it can no longer turn out to
start a key: the colon that makes a key of it stands behind it, and a token for
the key, and one for the mapping it opens, are then put in front of it.

In a block the columns of the open collections are kept; a line further left
closes them. `Tokens.peek` gives `none` if the text cannot be read on.
-/

namespace AwaitLint.Yaml

/-- The kinds of tokens. -/
inductive Token.Kind where
  | streamEnd
  | documentStart
  | documentEnd
  | blockSeqStart
  | blockMapStart
  | blockEnd
  | flowSeqStart
  | flowSeqEnd
  | flowMapStart
  | flowMapEnd
  /-- The dash before an item. -/
  | item
  /-- The comma between entries. -/
  | comma
  | key
  | value
  | scalar (quoted : Bool) (text : String)
deriving DecidableEq, Repr

/-- A token, with its line. -/
structure Token where
  kind : Token.Kind
  line : Nat
deriving DecidableEq, Repr

/-- A place where a key may have started. -/
structure KeyStart where
  /-- Whether it may still turn out to be one. -/
  possible : Bool
  /-- Whether nothing but a key may stand there. -/
  required : Bool
  /-- Whether its token is held back until that is known. -/
  awaited : Bool
  /-- The number of its first token. -/
  token : Nat
  place : Place

/-- A text that is being divided into tokens. -/
structure Tokens where
  cursor : Cursor
  /-- Whether lines lose their first character. -/
  marked : Bool
  /-- The tokens that are known and not yet taken. -/
  queue : List Token := []
  /-- The number of tokens that were taken. -/
  taken : Nat := 0
  /-- The columns of the open block collections, innermost first. -/
  columns : List Nat := []
  /-- The last start of a key at the present depth of flow collections. -/
  keyStart : KeyStart := ⟨false, false, false, 0, {}⟩
  /-- Those of the enclosing flow collections and of the block, innermost first. -/
  outer : List KeyStart := []
  /-- Whether a key may start here. -/
  keyAllowed : Bool := true

namespace Tokens

/-- The tokens of a text, at its start. A text that goes on with a byte-order mark
is marked. -/
def ofString (s : String) : Tokens :=
  let text := usable s
  { cursor := ⟨text, {}⟩,
    marked := s.toList.head? = some byteOrderMark && text.head? = some byteOrderMark }

/-- The depth to which collections may nest. -/
def maxDepth : Nat := 10000

/-- Whether the text stands in a flow collection. -/
def inFlow (t : Tokens) : Bool := !t.outer.isEmpty

/-- The place of the next character. -/
def place (t : Tokens) : Place := t.cursor.place

/-- The number that the next token will have. -/
def nextNumber (t : Tokens) : Nat := t.taken + t.queue.length

/-- Near the end of a text its lines lose nothing. -/
def unmarkAtEnd (t : Tokens) : Tokens :=
  { t with marked := t.marked && 4 ≤ t.cursor.rest.length }

/-- Steps over `n` characters. -/
def skip (t : Tokens) (n : Nat) : Tokens := { t with cursor := t.cursor.skip n }

/-- Adds a token of the present line. -/
def push (t : Tokens) (kind : Token.Kind) : Tokens :=
  { t with queue := t.queue ++ [⟨kind, t.place.line⟩] }

/-- Adds a token and steps over the character it stands for. -/
def pushChar (t : Tokens) (kind : Token.Kind) : Tokens := (t.push kind).skip 1

/-- Puts a token in front of the one with the given number, or last if that one
was taken. -/
def insert (t : Tokens) (number : Nat) (token : Token) : Tokens :=
  { t with
    queue :=
      if number < t.taken then t.queue ++ [token]
      else t.queue.insertIdx (number - t.taken) token }

/-! ## Block collections -/

/-- Closes the block collections that stand further right than a column, or all of
them. -/
def closeBlocks (t : Tokens) (column : Option Nat) : Tokens :=
  if t.inFlow then t
  else
    let kept := t.columns.dropWhile fun c => column.all (· < c)
    let ends := List.replicate (t.columns.length - kept.length) ⟨.blockEnd, t.place.line⟩
    { t with queue := t.queue ++ ends, columns := kept }

/-- Opens a block collection with its first token at a place, unless one is open
there. -/
def openBlock (t : Tokens) (kind : Token.Kind) (number : Nat) (p : Place) : Option Tokens :=
  if t.inFlow || t.columns.head?.any (p.column ≤ ·) then some t
  else if maxDepth ≤ t.columns.length then none
  else some { t.insert number ⟨kind, p.line⟩ with columns := p.column :: t.columns }

/-! ## Starts of keys -/

/-- Gives up the start of a key. -/
def dropKey (t : Tokens) : Option Tokens :=
  if !t.keyStart.possible then some t
  else if t.keyStart.required then none
  else some { t with keyStart := { t.keyStart with possible := false, awaited := false } }

/-- Notes that a key may start here. -/
def saveKey (t : Tokens) : Option Tokens :=
  if !t.keyAllowed then some t
  else do
    let required := !t.inFlow && t.columns.head? = some t.place.column
    let t ← t.dropKey
    return { t with keyStart := ⟨true, required, true, t.nextNumber, t.place⟩ }

/-- How long a key may be. -/
def maxKeyLength : Nat := 1024

/-- Whether a key that started there may end here: it stays on one line and is
not too long. -/
def reaches (t : Tokens) (k : KeyStart) : Bool :=
  k.place.line == t.place.line && t.place.index ≤ k.place.index + maxKeyLength

/-- Whether the start may still be one of a key; `none` if it should have been
one. -/
def isKey? (t : Tokens) (k : KeyStart) : Option Bool :=
  if !k.possible then some false
  else if t.reaches k then some true
  else if k.required then none
  else some false

/-! ## Single tokens -/

/-- The end of the text, which may be read again and again. It ends the last
line. -/
def readEnd (t : Tokens) : Option Tokens := do
  let p := if t.place.column = 0 then t.place else t.place.newLine
  let t ← ({ t with cursor := ⟨[], p⟩ }.closeBlocks none).dropKey
  return { t with keyAllowed := false }.push .streamEnd

/-- A document marker. -/
def readMarker (t : Tokens) (kind : Token.Kind) : Option Tokens := do
  let t ← (t.closeBlocks none).dropKey
  return ({ t with keyAllowed := false }.push kind).skip 3

/-- The start of a flow collection. -/
def readFlowStart (t : Tokens) (kind : Token.Kind) : Option Tokens := do
  let t ← t.saveKey
  if maxDepth ≤ t.outer.length then none
  else
    let inner : KeyStart := ⟨false, false, false, t.nextNumber, t.place⟩
    let t := t.pushChar kind
    return { t with outer := t.keyStart :: t.outer, keyStart := inner, keyAllowed := true }

/-- The end of a flow collection. The start of a key in front of a collection in
which no key could start is no longer awaited. -/
def readFlowEnd (t : Tokens) (kind : Token.Kind) : Option Tokens := do
  let t ← t.dropKey
  let t := match t.outer with
    | [] => t
    | k :: outer =>
      let awaited := k.awaited && k.token ≠ t.keyStart.token
      { t with keyStart := { k with awaited := awaited }, outer := outer }
  return { t with keyAllowed := false }.pushChar kind

/-- The comma between entries. -/
def readComma (t : Tokens) : Option Tokens := do
  let t ← t.dropKey
  return { t with keyAllowed := true }.pushChar .comma

/-- The dash before an item. -/
def readItem (t : Tokens) : Option Tokens := do
  if !t.inFlow && !t.keyAllowed then none
  let t ← t.openBlock .blockSeqStart t.nextNumber t.place
  let t ← t.dropKey
  return { t with keyAllowed := true }.pushChar .item

/-- The question mark before a key. -/
def readKey (t : Tokens) : Option Tokens := do
  if !t.inFlow && !t.keyAllowed then none
  let t ← t.openBlock .blockMapStart t.nextNumber t.place
  let t ← t.dropKey
  return { t with keyAllowed := !t.inFlow }.pushChar .key

/-- The colon before a value. It makes a key of what may be one. -/
def readValue (t : Tokens) : Option Tokens := do
  let k := t.keyStart
  if ← t.isKey? k then
    let t := t.insert k.token ⟨.key, k.place.line⟩
    let t ← t.openBlock .blockMapStart k.token k.place
    let used := { k with possible := false, awaited := false }
    return { t with keyStart := used, keyAllowed := false }.pushChar .value
  else
    if !t.inFlow && !t.keyAllowed then none
    let t ← t.openBlock .blockMapStart t.nextNumber t.place
    return { t with keyStart := { k with possible := false }, keyAllowed := !t.inFlow }.pushChar
      .value

/-- A quoted scalar. -/
def readQuoted (t : Tokens) (double : Bool) : Option Tokens := do
  let t ← t.saveKey
  let (text, after) ← quotedText double (t.cursor.rest.drop 1) t.place.next [] .empty
  let t := t.push (.scalar true (String.ofList text))
  return { t with cursor := after, keyAllowed := false }

/-- A plain scalar. A line break after it allows a key. -/
def readPlain (t : Tokens) : Option Tokens := do
  let t ← t.saveKey
  let indent := (t.columns.head?.map (· + 1)).getD 0
  let (text, after, gap) ← plainText t.inFlow indent t.cursor.rest t.place [] .empty
  let t := t.push (.scalar false (String.ofList text))
  let goesOn := !gap.isEmpty && (t.inFlow || indent ≤ after.place.column)
  let t := { t with cursor := after, keyAllowed := gap.hasBreak }
  return if goesOn then t.unmarkAtEnd else t

/-- The characters that a plain scalar does not start with. -/
def indicators : List Char :=
  ['-', '?', ':', ',', '[', ']', '\x7b', '\x7d', '#', '&', '*', '!', '|', '>', '\'', '"', '%', '@',
    '\x60']

/-- Whether a plain scalar may start with the character, if no other token does. -/
def startsPlain (t : Tokens) (c : Char) : Bool :=
  !(isPad c || indicators.contains c) || c = '-' || (!t.inFlow && (c = '?' || c = ':'))

/-- The token that starts with the given characters. -/
def readAt (t : Tokens) (c : Char) (cs : List Char) : Option Tokens :=
  match c with
  | '[' => t.readFlowStart .flowSeqStart
  | '\x7b' => t.readFlowStart .flowMapStart
  | ']' => t.readFlowEnd .flowSeqEnd
  | '\x7d' => t.readFlowEnd .flowMapEnd
  | ',' => t.readComma
  | '\'' => t.readQuoted false
  | '"' => t.readQuoted true
  | _ =>
    if c = '-' && endsWord cs then t.readItem
    else if c = '?' && (t.inFlow || endsWord cs) then t.readKey
    else if c = ':' && (t.inFlow || endsWord cs) then t.readValue
    else if t.startsPlain c then t.readPlain
    else none

/-- Steps over a comment behind the last token. A comment behind a dash or behind
a line break belongs to what follows. -/
def skipComment (t : Tokens) (line : Nat) : Tokens :=
  if t.queue.getLast?.any (·.kind = .item) || t.place.line ≠ line && t.keyAllowed then t
  else { t with cursor := t.cursor.skipComment }

/-- Steps over white space and comments, and closes the block collections that
have ended. -/
def toToken (t : Tokens) : Tokens :=
  let (cursor, keys) := Yaml.toToken t.inFlow t.marked t.cursor.rest t.place t.keyAllowed false none
  { t with cursor := cursor, keyAllowed := keys }.unmarkAtEnd.closeBlocks (some cursor.place.column)

/-- Reads the next token. -/
def read (t : Tokens) : Option Tokens :=
  let t := t.toToken
  match t.cursor.rest with
  | [] => t.readEnd
  | c :: cs =>
    if (t.cursor.rest.take 4).contains unreadable || (c = '%' && t.place.column = 0) then none
    else if t.place.atMarker (c :: cs) then
      t.readMarker (if c = '-' then .documentStart else .documentEnd)
    else (t.readAt c cs).map fun t' => t'.skipComment t.place.line

/-! ## The next token -/

/-- Whether the next token may start a key and is awaited for that; `none` if it
should have started one. -/
def isHeld? (t : Tokens) : Option Bool :=
  match (t.keyStart :: t.outer).find? fun k => k.awaited && k.token == t.taken with
  | none => some false
  | some k => t.isKey? k

/-- The number of tokens that are known at least when one is handed out. -/
def lookahead : Nat := 3

/-- Reads on until the next token can be handed out. -/
def fill : Nat → Tokens → Option Tokens
  | 0, _ => none
  | fuel + 1, t => do
    let held ← if lookahead ≤ t.queue.length then t.isHeld? else some true
    if held then fill fuel (← t.read) else some t

/-- The next token. A token is held back only within the length of a key, and
every token takes a character of the text, but for those at its end. -/
def peek (t : Tokens) : Option (Token × Tokens) := do
  let t ← t.fill (maxKeyLength + 2 * lookahead + 2)
  return (← t.queue.head?, t)

/-- Takes the next token. -/
def next (t : Tokens) : Tokens := { t with queue := t.queue.tail, taken := t.taken + 1 }

end Tokens

end AwaitLint.Yaml
