import AwaitLint.Measure
import AwaitLint.ValueType

/-!
# AwaitLint — program trees

A function is a tree of nodes. A node has an identity, a kind, a name, a static
type, possibly a variable, and children in four roles: the operand, the targets
and values of an assignment, and the arguments. Two places of a tree that hold
the same identity hold one node with two parents.

`Node.size_eq` counts the nodes of a tree through `Node.children`, which is what
loops over trees descend on.
-/

namespace AwaitLint

/-! ## Variables -/

/-- Where a variable lives. -/
inductive VarKind where
  | local
  | param
  | field
  | global
deriving DecidableEq, Repr

namespace VarKind

/-- The places in the order of their codes. -/
def all : List VarKind := [.local, .param, .field, .global]

/-- The written form. -/
def text : VarKind → String
  | .local => "local"
  | .param => "param"
  | .field => "field"
  | .global => "global"

/-- The written form of a code. -/
def describe (code : Nat) : String := (all[code]?).elim "var(?)" text

end VarKind

/-- A variable; `id` tells variables of one name apart. -/
structure Variable where
  id : Nat
  name : String
  kind : VarKind
  type : ValueType
deriving DecidableEq, Repr

/-- Whether the variable is a field or lives in a package, and so outlives the
function. -/
def Variable.isMember (v : Variable) : Bool := v.kind = .field || v.kind = .global

/-! ## Kinds of nodes -/

/-- The kind of a node. -/
inductive Kind where
  /-- Anything without a meaning of its own. -/
  | other
  /-- A function declaration or function literal. -/
  | func
  /-- A statement without a meaning of its own; its name is the keyword. -/
  | stmt
  /-- An expression evaluated for its effect: the operand. -/
  | exprStmt
  /-- An assignment of the values to the targets. -/
  | assign
  /-- A call of the named function; the operand is the receiver. -/
  | call
  /-- The creation of an object of the node's type. -/
  | new
  /-- A field or package variable; the operand is the owner. -/
  | fieldRef
  /-- A getter of the named member; the operand is the owner. -/
  | propertyRef
  /-- A local variable or parameter. -/
  | localRef
  /-- An await of the operand. -/
  | await
  /-- A choice between the two arguments by the operand. -/
  | conditional
  /-- A conversion of the operand to the node's type. -/
  | conversion
  /-- A collection literal of the arguments. -/
  | collection
deriving DecidableEq, Repr

namespace Kind

/-- The kinds in the order of their codes. -/
def all : List Kind :=
  [other, func, stmt, exprStmt, assign, call, new, fieldRef, propertyRef, localRef, await,
   conditional, conversion, collection]

/-- The written form. -/
def text : Kind → String
  | other => "Other"
  | func => "Func"
  | stmt => "Stmt"
  | exprStmt => "ExprStmt"
  | assign => "Assign"
  | call => "Call"
  | new => "New"
  | fieldRef => "FieldRef"
  | propertyRef => "PropertyRef"
  | localRef => "LocalRef"
  | await => "Await"
  | conditional => "Conditional"
  | conversion => "Conversion"
  | collection => "CollectionInit"

/-- The kind with a written form. -/
def ofText? (s : String) : Option Kind := all.find? fun k => k.text == s

/-- The written form of a code. -/
def describe (code : Nat) : String := (all[code]?).elim "Kind(?)" text

/-- Whether nodes of this kind end an expression. -/
def isStmt : Kind → Bool
  | func | stmt | exprStmt | assign => true
  | _ => false

end Kind

/-! ## Nodes -/

/-- The place of a node in its file: lines and columns count from one. -/
structure Span where
  line : Nat := 0
  column : Nat := 0
  endLine : Nat := 0
  endColumn : Nat := 0
deriving DecidableEq, Repr, Inhabited

/-- What a node holds besides its children. -/
structure NodeInfo where
  /-- The identity of the node. -/
  id : Nat
  kind : Kind
  /-- The called function, the member, the variable or the keyword. -/
  name : String := ""
  type : ValueType := .unknown
  /-- The variable of a reference. -/
  var : Option Variable := none
  span : Span := {}
deriving DecidableEq, Repr

/-- A node of a program tree. -/
inductive Node where
  | mk (info : NodeInfo) (operand : Option Node) (targets values args : List Node)

namespace Node

/-- A node without children. -/
def leaf (info : NodeInfo) : Node := mk info none [] [] []

instance : Inhabited Node := ⟨leaf { id := 0, kind := .other }⟩

/-- All but the children. -/
def info : Node → NodeInfo
  | mk info _ _ _ _ => info

/-- The operand: receiver, owner, awaited or converted expression. -/
def operand : Node → Option Node
  | mk _ operand _ _ _ => operand

/-- The left-hand sides of an assignment. -/
def targets : Node → List Node
  | mk _ _ targets _ _ => targets

/-- The right-hand sides of an assignment. -/
def values : Node → List Node
  | mk _ _ _ values _ => values

/-- The arguments. -/
def args : Node → List Node
  | mk _ _ _ _ args => args

/-- The identity. -/
def id (n : Node) : Nat := n.info.id

def kind (n : Node) : Kind := n.info.kind

def name (n : Node) : String := n.info.name

def type (n : Node) : ValueType := n.info.type

def var (n : Node) : Option Variable := n.info.var

def span (n : Node) : Span := n.info.span

/-- The children in the order of evaluation: operand, targets, values, arguments. -/
def children (n : Node) : List Node := n.operand.toList ++ n.targets ++ n.values ++ n.args

/-- Whether two nodes are one. -/
def same (n m : Node) : Bool := n.id == m.id

/-- Whether the node is one of the listed ones. -/
def isOneOf (n : Node) (list : List Node) : Bool := list.any fun m => m.same n

/-- Whether the node is an argument of `call`. -/
def isArgOf (n call : Node) : Bool := n.isOneOf call.args

/-- A reference to a variable. -/
def ref (id : Nat) (v : Variable) : Node :=
  leaf { id, kind := if v.isMember then .fieldRef else .localRef, name := v.name, type := v.type,
         var := some v }

/-! ## Size -/

mutual

/-- The number of places in the tree of a node. -/
def size : Node → Nat
  | mk _ operand targets values args =>
    1 + sizeOption operand + sizeList targets + sizeList values + sizeList args

/-- The number of places under an optional node. -/
def sizeOption : Option Node → Nat
  | none => 0
  | some n => n.size

/-- The number of places under all nodes of a list. -/
def sizeList : List Node → Nat
  | [] => 0
  | n :: ns => n.size + sizeList ns

end

@[simp] theorem sizeList_eq_total (ns : List Node) : sizeList ns = total size ns := by
  induction ns with
  | nil => rfl
  | cons n ns ih => simp [sizeList, ih]

/-- A tree has its root and the places of its children. -/
theorem size_eq (n : Node) : n.size = 1 + total size n.children := by
  obtain ⟨info, operand, targets, values, args⟩ := n
  cases operand <;>
    simp [size, sizeOption, children, Node.operand, Node.targets, Node.values, Node.args] <;> omega

/-- A child is smaller than its parent. -/
theorem size_lt_of_mem_children {n c : Node} (h : c ∈ n.children) : c.size < n.size := by
  have := le_total size h
  rw [size_eq n]
  omega

end Node

end AwaitLint
