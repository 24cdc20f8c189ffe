import AwaitLint.Yaml.Token
import AwaitLint.Yaml.Value

/-!
# AwaitLint — YAML documents

`Yaml.read` reads the first document of a text. It knows block and flow
collections, plain and quoted scalars, comments and document markers. What
follows the first document is not looked at beyond the next tokens.

The reader descends through the tokens. Every call of the descent uses up one
unit of fuel, of which there is enough for all tokens of the text.
-/

namespace AwaitLint.Yaml

/-- A reader of tokens. -/
abbrev Reading := StateT Tokens Option

/-- The next token. -/
def peek : Reading Token := Tokens.peek

/-- Steps over the next token. -/
def skip : Reading Unit := modify Tokens.next

/-- The text cannot be read on. -/
def stuck {α : Type} : Reading α := fun _ => none

/-! ## Values -/

mutual

/-- The value at the next token. Block collections stand in blocks only, and a
sequence without an indentation of its own only below a key. -/
def value : Nat → (block unindented : Bool) → Reading Value
  | 0, _, _ => stuck
  | fuel + 1, block, unindented => do
    let t ← peek
    match t.kind with
    | .scalar quoted text => skip; return .scalar t.line quoted text
    | .flowSeqStart => skip; return .seq t.line (← flowItems fuel true)
    | .flowMapStart => skip; return .map t.line (← flowEntries fuel true)
    | .blockSeqStart => if block then skip; return .seq t.line (← blockItems fuel) else stuck
    | .blockMapStart => if block then skip; return .map t.line (← blockEntries fuel) else stuck
    | .item => if unindented then return .seq t.line (← unindentedItems fuel) else stuck
    | _ => stuck

/-- The value at the next token, or nothing if the token is one of the given ones. -/
def valueUnless : Nat → (stops : List Token.Kind) → (line : Nat) → (block unindented : Bool) →
    Reading Value
  | 0, _, _, _, _ => stuck
  | fuel + 1, stops, line, block, unindented => do
    if stops.contains (← peek).kind then return .nothing line
    else value fuel block unindented

/-- The items of a block sequence up to its end. -/
def blockItems : Nat → Reading (List Value)
  | 0 => stuck
  | fuel + 1 => do
    let t ← peek
    match t.kind with
    | .item =>
      skip
      let item ← valueUnless fuel [.item, .blockEnd] t.line true false
      return item :: (← blockItems fuel)
    | .blockEnd => skip; return []
    | _ => stuck

/-- The items of a sequence in the column of its key. -/
def unindentedItems : Nat → Reading (List Value)
  | 0 => stuck
  | fuel + 1 => do
    let t ← peek
    match t.kind with
    | .item =>
      skip
      let item ← valueUnless fuel [.item, .key, .value, .blockEnd] t.line true false
      return item :: (← unindentedItems fuel)
    | _ => return []

/-- The value of an entry, if a colon comes next. -/
def afterColon : Nat → (stops : List Token.Kind) → (block : Bool) → Reading Value
  | 0, _, _ => stuck
  | fuel + 1, stops, block => do
    let t ← peek
    if t.kind = .value then
      skip
      valueUnless fuel stops t.line block block
    else return .nothing t.line

/-- The entries of a block mapping up to its end. -/
def blockEntries : Nat → Reading (List (Value × Value))
  | 0 => stuck
  | fuel + 1 => do
    let t ← peek
    match t.kind with
    | .key =>
      skip
      let stops := [.key, .value, .blockEnd]
      let key ← valueUnless fuel stops t.line true true
      let content ← afterColon fuel stops true
      return (key, content) :: (← blockEntries fuel)
    | .blockEnd => skip; return []
    | _ => stuck

/-- The items of a flow sequence up to its end. A key makes a mapping of one
entry. -/
def flowItems : Nat → (first : Bool) → Reading (List Value)
  | 0, _ => stuck
  | fuel + 1, first => do
    if (← peek).kind = .flowSeqEnd then skip; return []
    else
      unless first do
        if (← peek).kind = .comma then skip else stuck
      let t ← peek
      match t.kind with
      | .flowSeqEnd => skip; return []
      | .key =>
        skip
        let next ← peek
        let isEmpty := [.value, .comma, .flowSeqEnd].contains next.kind
        let key ← if isEmpty then do skip; pure (.nothing next.line) else value fuel false false
        let content ← afterColon fuel [.comma, .flowSeqEnd] false
        return .map t.line [(key, content)] :: (← flowItems fuel false)
      | _ =>
        let item ← value fuel false false
        return item :: (← flowItems fuel false)

/-- The entries of a flow mapping up to its end. A value without a key mark has
nothing for its content. -/
def flowEntries : Nat → (first : Bool) → Reading (List (Value × Value))
  | 0, _ => stuck
  | fuel + 1, first => do
    if (← peek).kind = .flowMapEnd then skip; return []
    else
      unless first do
        if (← peek).kind = .comma then skip else stuck
      let t ← peek
      match t.kind with
      | .flowMapEnd => skip; return []
      | .key =>
        skip
        let key ← valueUnless fuel [.value, .comma, .flowMapEnd] t.line false false
        let content ← afterColon fuel [.comma, .flowMapEnd] false
        return (key, content) :: (← flowEntries fuel false)
      | _ =>
        let key ← value fuel false false
        let next ← peek
        return (key, .nothing next.line) :: (← flowEntries fuel false)

end

/-! ## Documents -/

/-- Why a text is no document. -/
inductive Malformed where
  | malformed
deriving DecidableEq, Repr

/-- The content of a document. It may be empty only after a marker. -/
def content (fuel : Nat) : Reading Value := do
  let t ← peek
  if t.kind = .documentStart then
    skip
    valueUnless fuel [.documentStart, .documentEnd, .streamEnd] t.line true false
  else value fuel true false

/-- The first document, if there is one. A token has to follow it. -/
def document (fuel : Nat) : Reading (Option Value) := do
  if (← peek).kind = .streamEnd then return none
  else
    let v ← content fuel
    let _ ← peek
    return some v

/-- The first document of a text; `none` if it is empty. -/
def read (s : String) : Except Malformed (Option Value) :=
  match document (8 * s.length + 16) (Tokens.ofString s) with
  | none => .error .malformed
  | some (v, _) => .ok v

end AwaitLint.Yaml
