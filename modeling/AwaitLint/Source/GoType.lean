import AwaitLint.ValueType

/-!
# AwaitLint — types of Go source

`GoType` holds what the analyses look at in a Go type, and `GoType.toValueType`
reduces it to a `ValueType`: a name seen through aliases and one pointer, the
element of a slice or array, and the components of a multiple result.
-/

namespace AwaitLint.Source

/-- A Go type. -/
inductive GoType where
  /-- A basic type, `invalid type` and `untyped nil` included. -/
  | basic (name : String)
  /-- A named type or an instance of a generic one; predeclared ones have no package. -/
  | named (pkg : Option String) (name : String) (under : GoType)
  /-- Another name for a type. -/
  | synonym (of : GoType)
  | pointer (elem : GoType)
  | slice (elem : GoType)
  | array (elem : GoType)
  | struct
  /-- The results of a call. -/
  | tuple (elems : List GoType)
  /-- A type without name and elements: maps, channels, functions, interfaces,
  type parameters. -/
  | other
deriving Repr

namespace GoType

instance : Inhabited GoType := ⟨other⟩

/-- The type that a predeclared name stands for. -/
def predeclared (name : String) : GoType :=
  if name = "error" || name = "comparable" then named none name other
  else if name = "any" then synonym other
  else basic name

/-! ## Views -/

/-- The type behind its aliases. -/
def unalias : GoType → GoType
  | synonym t => unalias t
  | t => t

/-- The structure of a type: what is behind its names. -/
def underlying : GoType → GoType
  | synonym t => underlying t
  | named _ _ under => underlying under
  | t => t

/-- Whether the type is a struct behind its names. -/
def isStruct (t : GoType) : Bool :=
  match t.underlying with
  | struct => true
  | _ => false

/-- The element of a pointer, or else the type itself. -/
def unwrapPointer (t : GoType) : GoType :=
  match t.unalias with
  | pointer elem => elem
  | _ => t

/-- The qualified name, seen through one pointer and aliases; empty for unnamed
types. -/
def qualifiedName (t : GoType) : String :=
  match t.unwrapPointer.unalias with
  | named (some pkg) name _ => pkg ++ "." ++ name
  | named none name _ => name
  | basic name => name
  | _ => ""

/-! ## Reduction -/

mutual

/-- The name, element and components of a type. A result list of one type is
that type. -/
def toValueType : GoType → ValueType
  | tuple [t] => t.toValueType
  | tuple ts => .tupleOf (toValueTypes ts)
  | named pkg name under => .mk (qualifiedName (named pkg name under)) under.listElem? []
  | synonym t => .mk (qualifiedName (synonym t)) t.listElem? []
  | slice elem => .mk "" (some elem.toValueType) []
  | array elem => .mk "" (some elem.toValueType) []
  | basic name => .named name
  | pointer elem => .named (qualifiedName (pointer elem))
  | struct => .unknown
  | other => .unknown

/-- The element of a slice or array behind its names. -/
def listElem? : GoType → Option ValueType
  | synonym t => t.listElem?
  | named _ _ under => under.listElem?
  | slice elem => some elem.toValueType
  | array elem => some elem.toValueType
  | _ => none

/-- The reduced components of a multiple result. -/
def toValueTypes : List GoType → List ValueType
  | [] => []
  | t :: ts => t.toValueType :: toValueTypes ts

end

end GoType

end AwaitLint.Source
