import AwaitLint.Yaml.Tag

/-!
# AwaitLint — values of YAML documents

Scalars with their text as it stands in the document, sequences and mappings,
each with the line it starts on.
-/

namespace AwaitLint.Yaml

/-- A value of a document, with the line it starts on. -/
inductive Value where
  | scalar (line : Nat) (quoted : Bool) (text : String)
  | seq (line : Nat) (items : List Value)
  | map (line : Nat) (entries : List (Value × Value))
deriving Repr

namespace Value

/-- The value that stands where nothing is written. -/
def nothing (line : Nat) : Value := scalar line false ""

instance : Inhabited Value := ⟨nothing 0⟩

/-- The line a value starts on. -/
def line : Value → Nat
  | scalar line _ _ => line
  | seq line _ => line
  | map line _ => line

/-- The kind of a value. -/
def tag : Value → Tag
  | scalar _ quoted text => if quoted then .str else Tag.ofPlain text
  | seq _ _ => .seq
  | map _ _ => .map

/-- The text of a scalar. -/
def text : Value → String
  | scalar _ _ text => text
  | _ => ""

/-- Whether the value is null. -/
def isNull (v : Value) : Bool := v.tag = .null

/-- Whether two values count as the same key: scalars of one text, or collections
of one kind. -/
def sameKey : Value → Value → Bool
  | scalar _ _ s, scalar _ _ t => s = t
  | seq _ _, seq _ _ => true
  | map _ _, map _ _ => true
  | _, _ => false

/-- Whether the value is the key under which a mapping takes in others. -/
def isMerge (v : Value) : Bool := v.tag = .merge

end Value

/-! ## Entries of mappings -/

/-- The entries of a mapping. -/
abbrev Entries := List (Value × Value)

/-- The keys of a mapping that stand there before, each behind the earlier one. -/
def Entries.repeated : Entries → List (Value × Value)
  | [] => []
  | (key, _) :: rest =>
    (rest.map Prod.fst |>.filter key.sameKey |>.map (key, ·)) ++ Entries.repeated rest

mutual

/-- The entries of a mapping, then those of the mappings that it takes in. A
mapping with a repeated key takes in none. -/
def layers? : Value → Option (List Entries)
  | .map _ entries =>
    if (Entries.repeated entries).isEmpty then (mergedLayers? entries).map (entries :: ·)
    else some [entries]
  | _ => none

/-- The layers of mappings in a row. -/
def layersOf? : List Value → Option (List Entries)
  | [] => some []
  | v :: vs => do return (← layers? v) ++ (← layersOf? vs)

/-- The layers under the merge key: those of one mapping or of a sequence of
mappings. -/
def mergedLayers? : List (Value × Value) → Option (List Entries)
  | [] => some []
  | (key, v) :: rest =>
    if key.isMerge then
      match v with
      | .seq _ items => layersOf? items
      | v => layers? v
    else mergedLayers? rest

end

end AwaitLint.Yaml
