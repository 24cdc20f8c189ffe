/-!
# AwaitLint — value types

What the analyses know of a static type: the qualified name of a named type,
the element type of a list, and the components of a multiple result. A type may
carry several of these at once; one that carries none says nothing.
-/

namespace AwaitLint

/-- A static type, reduced to names, list elements and components. -/
inductive ValueType where
  /-- `name` is empty for unnamed types, `elem` is the element type of a list,
  `tuple` the components of a multiple result. -/
  | mk (name : String) (elem : Option ValueType) (tuple : List ValueType)
deriving Repr

namespace ValueType

/-- The qualified name, empty for unnamed types. -/
def name : ValueType → String
  | mk name _ _ => name

/-- The element type of a list. -/
def elem : ValueType → Option ValueType
  | mk _ elem _ => elem

/-- The components of a multiple result. -/
def tuple : ValueType → List ValueType
  | mk _ _ tuple => tuple

/-- The type that says nothing. -/
def unknown : ValueType := mk "" none []

instance : Inhabited ValueType := ⟨unknown⟩

/-- A type with a name only. -/
def named (name : String) : ValueType := mk name none []

/-- An unnamed list. -/
def listOf (elem : ValueType) : ValueType := mk "" (some elem) []

/-- A multiple result. -/
def tupleOf (components : List ValueType) : ValueType := mk "" none components

/-- Whether the type says nothing. -/
def isUnknown (t : ValueType) : Bool := t.name.isEmpty && t.elem.isNone && t.tuple.isEmpty

/-! ## Equality -/

mutual

/-- Decides equality of types. -/
def decEq : (a b : ValueType) → Decidable (a = b)
  | mk n e t, mk m f u =>
    if hn : n = m then
      match decEqElem e f, decEqTuple t u with
      | isTrue he, isTrue ht => isTrue (by rw [hn, he, ht])
      | isFalse he, _ => isFalse (by intro h; injection h; contradiction)
      | _, isFalse ht => isFalse (by intro h; injection h; contradiction)
    else isFalse (by intro h; injection h; contradiction)

/-- Decides equality of element types. -/
def decEqElem : (a b : Option ValueType) → Decidable (a = b)
  | none, none => isTrue rfl
  | none, some _ => isFalse (by simp)
  | some _, none => isFalse (by simp)
  | some a, some b =>
    match decEq a b with
    | isTrue h => isTrue (by rw [h])
    | isFalse h => isFalse (by intro e; injection e; contradiction)

/-- Decides equality of components. -/
def decEqTuple : (a b : List ValueType) → Decidable (a = b)
  | [], [] => isTrue rfl
  | [], _ :: _ => isFalse (by simp)
  | _ :: _, [] => isFalse (by simp)
  | a :: as, b :: bs =>
    match decEq a b, decEqTuple as bs with
    | isTrue h, isTrue t => isTrue (by rw [h, t])
    | isFalse h, _ => isFalse (by intro e; injection e; contradiction)
    | _, isFalse t => isFalse (by intro e; injection e; contradiction)

end

instance : DecidableEq ValueType := decEq

/-! ## Names and text -/

mutual

/-- The name of the type and the names of its components at any depth, the
empty ones left out. Element types are not looked into. -/
def names : ValueType → List String
  | mk name _ tuple => (if name.isEmpty then [] else [name]) ++ namesOf tuple

/-- The names of all components. -/
def namesOf : List ValueType → List String
  | [] => []
  | t :: ts => t.names ++ namesOf ts

end

mutual

/-- The written form: the name, else the list, else the components. -/
def text : ValueType → String
  | mk name elem tuple =>
    if !name.isEmpty then name
    else
      match elem with
      | some e => "[]" ++ e.text
      | none => if tuple.isEmpty then "?" else "(" ++ textOf tuple ++ ")"

/-- The written components, separated by commas. -/
def textOf : List ValueType → String
  | [] => ""
  | [t] => t.text
  | t :: ts => t.text ++ ", " ++ textOf ts

end

end ValueType

end AwaitLint
