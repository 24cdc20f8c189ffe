/-!
# AwaitLint — places in a YAML text

A `Cursor` is a place in a text with what follows it. `Yaml.usable` prepares a
text: it is taken in blocks, and the first block with a character that no
document may hold ends what can be read. `Cursor.toToken` steps over white space
and comments.
-/

namespace AwaitLint.Yaml

/-! ## Characters -/

/-- Whether a document may hold the character. -/
def isPrintable (c : Char) : Bool :=
  let n := c.toNat
  n = 0x09 || n = 0x0a || n = 0x0d || (0x20 ≤ n && n ≤ 0x7e) || n = 0x85
    || (0xa0 ≤ n && n ≤ 0xd7ff) || (0xe000 ≤ n && n ≤ 0xfffd) || 0x10000 ≤ n

/-- The byte-order mark. -/
def byteOrderMark : Char := Char.ofNat 0xfeff

/-- The mark of a place where a text cannot be read on. No document holds it. -/
def unreadable : Char := Char.ofNat 0

/-- Whether the character ends a line. -/
def isBreak (c : Char) : Bool :=
  c = '\n' || c.toNat = 0x85 || c.toNat = 0x2028 || c.toNat = 0x2029

/-- Whether the character is a space or a tab. -/
def isPad (c : Char) : Bool := c = ' ' || c = '\t'

/-- Whether nothing, white space or the end of a line follows. -/
def endsWord : List Char → Bool
  | [] => true
  | c :: _ => isPad c || isBreak c

/-- The number of bytes that a text is taken in at a time. -/
def blockSize : Nat := 512

/-- A text up to the block with its first character that no document may hold.
`used` is the number of bytes of the block so far, and `block` its characters,
last first. -/
def readable : List Char → (used : Nat) → (block : List Char) → List Char
  | [], _, block => block.reverse
  | c :: cs, used, block =>
    if blockSize < used + c.utf8Size then
      block.reverse ++ if isPrintable c then readable cs c.utf8Size [c] else [unreadable]
    else if isPrintable c then readable cs (used + c.utf8Size) (c :: block)
    else [unreadable]

/-- The text with its common line breaks written alike. -/
def normalizeBreaks : List Char → List Char
  | '\r' :: '\n' :: cs => '\n' :: normalizeBreaks cs
  | '\r' :: cs => '\n' :: normalizeBreaks cs
  | c :: cs => c :: normalizeBreaks cs
  | [] => []

/-- The text without a byte-order mark at its start, as far as it can be read. -/
def usable (s : String) : List Char :=
  let text := readable s.toList 0 []
  normalizeBreaks (if text.head? = some byteOrderMark then text.tail else text)

/-! ## Places -/

/-- A place: its line, counted from one, its column, and the number of
characters before it. -/
structure Place where
  line : Nat := 1
  column : Nat := 0
  index : Nat := 0

/-- The next place of the same line. -/
def Place.next (p : Place) : Place := { p with column := p.column + 1, index := p.index + 1 }

/-- The start of the next line. -/
def Place.newLine (p : Place) : Place := ⟨p.line + 1, 0, p.index + 1⟩

/-- Whether a document marker stands at a place. -/
def Place.atMarker (p : Place) (cs : List Char) : Bool :=
  p.column == 0 &&
    match cs with
    | '-' :: '-' :: '-' :: rest => endsWord rest
    | '.' :: '.' :: '.' :: rest => endsWord rest
    | _ => false

/-- A place in a text and what follows it. -/
structure Cursor where
  rest : List Char
  place : Place := {}

/-- Steps over `n` characters of the same line. -/
def Cursor.skip (c : Cursor) (n : Nat) : Cursor :=
  ⟨c.rest.drop n, { c.place with column := c.place.column + n, index := c.place.index + n }⟩

/-! ## White space and comments -/

/-- How far after a comment the next one is looked for. -/
def commentReach : Nat := 512

/-- Whether only blank lines lie between the text and a comment. The comment
before ended `away` characters ago. -/
def leadsToComment (away : Nat) (cs : List Char) : Bool :=
  let blank := cs.takeWhile fun c => isPad c || c = '\n'
  away + blank.length < commentReach && (cs.drop blank.length).head? = some '#'

/-- Steps over white space and comments. In a block a new line may start with a
key, and then tabs do not count as white space, unless they lead from one comment
to the next. In a text that is `marked` a line loses its first character. Gives
the cursor and whether a key may start there. -/
def toToken (flow marked : Bool) :
    List Char → Place → (keys comment : Bool) → (away : Option Nat) → Cursor × Bool
  | [], p, keys, _, _ => (⟨[], p⟩, keys)
  | c :: cs, p, keys, comment, away =>
    let betweenComments := away.any fun n => leadsToComment n (c :: cs)
    if marked && p.column == 0 && !betweenComments then
      toToken flow marked cs p.next keys false none
    else if isBreak c then
      let away := if c ≠ '\n' then none else if comment then some 1 else away.map (· + 1)
      toToken flow marked cs p.newLine (keys || !flow) false away
    else if comment then
      if c = unreadable then (⟨c :: cs, p⟩, keys) else toToken flow marked cs p.next keys true none
    else if c = ' ' || (c = '\t' && (flow || !keys || betweenComments)) then
      toToken flow marked cs p.next keys false (away.map (· + 1))
    else if c = '#' then toToken flow marked cs p.next keys true none
    else (⟨c :: cs, p⟩, keys)

/-- Steps over the rest of a line. -/
def toLineEnd : List Char → Place → Cursor
  | [], p => ⟨[], p⟩
  | c :: cs, p => if isBreak c || c = unreadable then ⟨c :: cs, p⟩ else toLineEnd cs p.next

/-- Steps over a comment on the same line. -/
def Cursor.skipComment (c : Cursor) : Cursor :=
  let pads := c.rest.takeWhile isPad
  if pads.length < commentReach && (c.rest.drop pads.length).head? = some '#' then
    toLineEnd c.rest c.place
  else c

end AwaitLint.Yaml
