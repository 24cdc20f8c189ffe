import AwaitLint.Config
import AwaitLint.Source.Ast

/-!
# AwaitLint — lowering Go functions

`lowerDecl` turns a function declaration, with its function literals, into a
program tree. Beside the tree it leaves a `Trace`: which node each piece of
syntax became, and which syntax each function node stems from.

* A piece of syntax becomes one node, whose identity is twice its number. The
  key and the value of a range loop become an assignment around their own node,
  with the odd identity that follows.
* Parentheses leave no node; they count as what is inside them. A literal whose
  address is taken counts as the node of the address.
* Of declarations, only those of variables are looked into.
* Calls take the form that the analyses know: conversions, additions to a list,
  creations, awaits, and plain calls with or without a receiver.
-/

namespace AwaitLint.Source

/-! ## The trace -/

/-- A piece of syntax and the node it became. -/
structure Lowered where
  number : Nat
  /-- Whether the piece is an expression. -/
  isExpr : Bool
  node : Node

/-- The source of a function node. -/
structure FuncSource where
  body : Option (List Stmt)
  graph : Option FlowGraph

/-- What lowering leaves beside the tree, in the order of lowering. -/
structure Trace where
  pieces : List Lowered := []
  /-- Function nodes by identity. -/
  functions : List (Nat × FuncSource) := []

/-- A value with the trace of its lowering. -/
structure Lower (α : Type) where
  value : α
  trace : Trace := {}

namespace Lower

/-- Lowers one thing after another. -/
def andThen {α β : Type} (m : Lower α) (f : α → Lower β) : Lower β :=
  let r := f m.value
  ⟨r.value,
    ⟨m.trace.pieces ++ r.trace.pieces, m.trace.functions ++ r.trace.functions⟩⟩

instance : Monad Lower where
  pure a := ⟨a, {}⟩
  bind := andThen

/-- The node that an expression became. -/
def ofExpr (piece : Piece) (node : Node) : Lower Node := ⟨node, ⟨[⟨piece.number, true, node⟩], []⟩⟩

/-- The node that a statement became. -/
def ofStmt (piece : Piece) (node : Node) : Lower Node := ⟨node, ⟨[⟨piece.number, false, node⟩], []⟩⟩

/-- Notes the source of a function node. -/
def function (node : Node) (source : FuncSource) : Lower Unit := ⟨(), ⟨[], [(node.id, source)]⟩⟩

end Lower

/-! ## Nodes -/

/-- What lowering knows besides the syntax: the configuration and the parameters
of the enclosing functions. -/
structure Scope where
  config : Config
  params : List Nat := []

/-- The variable of a declared one. -/
def Scope.variable (s : Scope) (v : VarObject) : Variable where
  id := v.id
  name := v.name
  kind :=
    if s.params.contains v.id then .param
    else
      match v.scope with
      | .field => .field
      | .package => .global
      | .inner => .local
  type := v.type.toValueType

/-- The start of a node for a piece of syntax. -/
def Piece.nodeInfo (p : Piece) (kind : Kind) : NodeInfo :=
  { id := 2 * p.number, kind, span := p.span }

/-- A statement node with a keyword. -/
def Piece.stmtNode (p : Piece) (keyword : String) (args : List Node) : Node :=
  .mk { p.nodeInfo .stmt with name := keyword } none [] [] args

/-- An assignment node. -/
def Piece.assignNode (p : Piece) (token : String) (targets values : List Node) : Node :=
  .mk { p.nodeInfo .assign with name := token } none targets values []

/-- The assignment of a range loop to its key or value. -/
def Piece.rangeNode (p : Piece) (target : Node) : Node :=
  .mk { p.nodeInfo .assign with id := 2 * p.number + 1, name := "range" } none [target] [] []

/-- A node without a meaning of its own. -/
def Piece.otherNode (p : Piece) (name : String) (type : ValueType) (args : List Node) : Node :=
  .mk { p.nodeInfo .other with name, type } none [] [] args

/-- A reference to a variable. -/
def Piece.refNode (p : Piece) (kind : Kind) (name : String) (v : Variable)
    (owner : Option Node) : Node :=
  .mk { p.nodeInfo kind with name, type := v.type, var := some v } owner [] [] []

/-- The node of an identifier: a reference, unless it is blank or no variable. -/
def Scope.identNode (s : Scope) (e : ExprInfo) (name : String) (object : Option Object)
    (type : ValueType) : Node :=
  match object with
  | some (.var v) =>
    if name = "_" then e.otherNode name type []
    else
      let v := s.variable v
      e.refNode (if v.isMember then .fieldRef else .localRef) name v none
  | _ => e.otherNode name type []

/-! ## Forms of calls -/

/-- The form that a call takes in the tree. -/
inductive CallForm where
  /-- A conversion of the only argument. -/
  | conversion
  /-- An addition to the list that is the first argument. -/
  | addition (name : String)
  /-- A creation. -/
  | creation
  /-- A call of a value or of a builtin function; the value is the receiver. -/
  | value (name : String) (isBuiltin : Bool)
  /-- An await of the receiver. -/
  | await (name : String)
  /-- A call of a method of the receiver. -/
  | method (name : String)
  /-- A call of a named function. -/
  | plain (name : String)
deriving DecidableEq, Repr

/-- The receiver type of a method call. -/
def methodReceiver? (function : Expr) : Option ValueType :=
  match function.unparen with
  | .selector _ x _ _ (some .method) => some x.valueType
  | _ => none

/-- The form of a call of a function without a declaration at hand. -/
def valueForm (function : Expr) : CallForm :=
  match function.unparen with
  | .ident _ name (some (.builtin _)) => .value name true
  | .ident _ name _ => .value name false
  | _ => .value "" false

/-- The form of a call of a declared function. -/
def Scope.declaredForm (s : Scope) (f : FuncObject) (function : Expr) (args : List Expr) :
    CallForm :=
  match f.isMethod, methodReceiver? function with
  | true, some recv =>
    if s.config.isAwaitMethod f.name && (s.config.tracks recv || s.config.isList recv) then
      .await f.name
    else .method f.name
  | _, _ =>
    if f.pkg = "slices" && f.name = "Insert" && !args.isEmpty then .addition f.name
    else .plain f.name

/-- The form of a call. -/
def Scope.callForm (s : Scope) (function : Expr) (args : List Expr) (callee : Option Object) :
    CallForm :=
  if function.unparen.info.isType && args.length = 1 then .conversion
  else
    match callee with
    | some (.builtin name) =>
      if name = "append" && !args.isEmpty then .addition name
      else if name = "new" then .creation
      else valueForm function
    | some (.func f) => s.declaredForm f function args
    | _ => valueForm function

/-- The node of a call, given its lowered receiver and arguments. -/
def CallForm.node (form : CallForm) (p : Piece) (type : ValueType) (recv : Option Node)
    (args : List Node) : Node :=
  match form with
  | conversion => .mk { p.nodeInfo .conversion with type } args.head? [] [] []
  | addition name => .mk { p.nodeInfo .call with name, type } args.head? [] [] args.tail
  | creation => .mk { p.nodeInfo .new with name := type.name, type } none [] [] []
  | value name _ => .mk { p.nodeInfo .call with name, type } recv [] [] args
  | await name => .mk { p.nodeInfo .await with name, type } recv [] [] args
  | method name => .mk { p.nodeInfo .call with name, type } recv [] [] args
  | plain name => .mk { p.nodeInfo .call with name, type } none [] [] args

/-- The node of a composite literal: a collection, a creation of a tracked
value, or neither. -/
def Scope.compositeNode (s : Scope) (p : Piece) (type : ValueType) (isBare : Bool)
    (elements : List Node) : Node :=
  if type.elem.isSome && isBare then .mk { p.nodeInfo .collection with type } none [] [] elements
  else if s.config.tracks type then
    .mk { p.nodeInfo .new with name := type.name, type } none [] [] elements
  else p.otherNode "composite" type elements

/-- The reduced type of an expression. -/
def ExprInfo.valueType (e : ExprInfo) : ValueType :=
  (e.type.map GoType.toValueType).getD .unknown

/-- Whether a literal is one of a struct. -/
def ExprInfo.isStruct (e : ExprInfo) : Bool := e.type.any GoType.isStruct

/-! ## Lowering -/

mutual

/-- Lowers an expression. -/
def lowerExpr (s : Scope) : Expr → Lower Node
  | .paren i x => do Lower.ofExpr i.toPiece (← lowerExpr s x)
  | .ident i name object => Lower.ofExpr i.toPiece (s.identNode i name object i.valueType)
  | .selector i x name object selection =>
    match selection, object with
    | some .field, some (.var v) => do
      let owner ← lowerExpr s x
      Lower.ofExpr i.toPiece (i.refNode .fieldRef v.name (s.variable v) (some owner))
    | none, some (.var v) =>
      Lower.ofExpr i.toPiece (i.refNode .fieldRef v.name (s.variable v) none)
    | none, _ => Lower.ofExpr i.toPiece (i.otherNode name i.valueType [])
    | some _, _ => do
      let owner ← lowerExpr s x
      Lower.ofExpr i.toPiece (i.otherNode name i.valueType [owner])
  | .call i function args callee =>
    let form := s.callForm function args callee
    match form with
    | .creation => Lower.ofExpr i.toPiece (form.node i.toPiece i.valueType none [])
    | .value _ false => do
      let args ← lowerExprs s args
      let recv ← lowerExpr s function
      Lower.ofExpr i.toPiece (form.node i.toPiece i.valueType (some recv) args)
    | .await _ | .method _ => do
      let recv ← lowerReceiver s function
      let args ← lowerExprs s args
      Lower.ofExpr i.toPiece (form.node i.toPiece i.valueType (some recv) args)
    | _ => do
      let args ← lowerExprs s args
      Lower.ofExpr i.toPiece (form.node i.toPiece i.valueType none args)
  | .composite i elements => do
    let elements ← lowerElements s i.isStruct elements
    Lower.ofExpr i.toPiece (s.compositeNode i.toPiece i.valueType true elements)
  | .unary i op x =>
    match if op = "&" then lowerAddressed s i x else none with
    | some literal => literal
    | none => do
      let x ← lowerExpr s x
      Lower.ofExpr i.toPiece (i.otherNode op i.valueType [x])
  | .binary i op x y => do
    let x ← lowerExpr s x
    let y ← lowerExpr s y
    Lower.ofExpr i.toPiece (i.otherNode op i.valueType [x, y])
  | .keyValue i key value => do
    let key ← lowerExpr s key
    let value ← lowerExpr s value
    Lower.ofExpr i.toPiece (i.otherNode ":" .unknown [key, value])
  | .funcLit i params body graph => do
    let stmts ← lowerStmts { s with params := params ++ s.params } body
    let node : Node :=
      .mk { i.nodeInfo .func with name := "func literal", type := i.valueType } none [] [] stmts
    Lower.function node ⟨some body, graph⟩
    Lower.ofExpr i.toPiece node
  | .index i x indices => do
    let x ← lowerExpr s x
    let indices ← lowerExprs s indices
    Lower.ofExpr i.toPiece (i.otherNode "" i.valueType (x :: indices))
  | .slice i x bounds => do
    let x ← lowerExpr s x
    let bounds ← lowerExprs s bounds
    Lower.ofExpr i.toPiece (i.otherNode "" i.valueType (x :: bounds))
  | .star i x =>
    if i.isType then Lower.ofExpr i.toPiece (i.otherNode "" i.valueType [])
    else do
      let x ← lowerExpr s x
      Lower.ofExpr i.toPiece (i.otherNode "" i.valueType [x])
  | .typeAssert i x => do
    let x ← lowerExpr s x
    Lower.ofExpr i.toPiece (i.otherNode "" i.valueType [x])
  | .atom i => Lower.ofExpr i.toPiece (i.otherNode "" i.valueType [])

/-- Lowers the expressions of a list. -/
def lowerExprs (s : Scope) : List Expr → Lower (List Node)
  | [] => pure []
  | e :: es => do return (← lowerExpr s e) :: (← lowerExprs s es)

/-- Lowers an optional expression. -/
def lowerExpr? (s : Scope) : Option Expr → Lower (List Node)
  | none => pure []
  | some e => do return [← lowerExpr s e]

/-- Lowers what a method is selected from. -/
def lowerReceiver (s : Scope) : Expr → Lower Node
  | .paren _ x => lowerReceiver s x
  | .selector _ x _ _ _ => lowerExpr s x
  | e => Lower.ofExpr e.info.toPiece (e.info.otherNode "" e.valueType [])

/-- Lowers the elements of a literal; of those of a struct, the values only. -/
def lowerElements (s : Scope) (isStruct : Bool) : List Expr → Lower (List Node)
  | [] => pure []
  | .keyValue i key value :: es => do
    let e ←
      if isStruct then lowerExpr s value
      else do
        let key ← lowerExpr s key
        let value ← lowerExpr s value
        Lower.ofExpr i.toPiece (i.otherNode ":" .unknown [key, value])
    return e :: (← lowerElements s isStruct es)
  | e :: es => do return (← lowerExpr s e) :: (← lowerElements s isStruct es)

/-- Lowers the address of a composite literal; none for other operands. -/
def lowerAddressed (s : Scope) (outer : ExprInfo) : Expr → Option (Lower Node)
  | .paren _ x => lowerAddressed s outer x
  | .composite i elements => some do
    let elements ← lowerElements s i.isStruct elements
    let node := s.compositeNode outer.toPiece outer.valueType false elements
    let _ ← Lower.ofExpr i.toPiece node
    Lower.ofExpr outer.toPiece node
  | _ => none

/-- Lowers the key or value of a range loop. -/
def lowerRangeTarget (s : Scope) : Option Expr → Lower (List Node)
  | none => pure []
  | some e => do
    let target ← lowerExpr s e
    return [← Lower.ofExpr e.info.toPiece (e.info.rangeNode target)]

/-- Lowers a statement. -/
def lowerStmt (s : Scope) : Stmt → Lower Node
  | .expr p x => do
    let x ← lowerExpr s x
    Lower.ofStmt p (.mk (p.nodeInfo .exprStmt) (some x) [] [] [])
  | .assign p token targets values => do
    let targets ← lowerExprs s targets
    let values ← lowerExprs s values
    Lower.ofStmt p (p.assignNode token targets values)
  | .incDec p token x => do
    let x ← lowerExpr s x
    Lower.ofStmt p (p.assignNode token [x] [])
  | .decl p keyword specs => do
    let specs ← if keyword = "var" then lowerStmts s specs else pure []
    Lower.ofStmt p (p.stmtNode "decl" specs)
  | .valueSpec p names values => do
    let names ← lowerExprs s names
    let values ← lowerExprs s values
    Lower.ofStmt p (p.assignNode "var" names values)
  | .ret p results => do Lower.ofStmt p (p.stmtNode "return" (← lowerExprs s results))
  | .go p call => do Lower.ofStmt p (p.stmtNode "go" [← lowerExpr s call])
  | .defer p call => do Lower.ofStmt p (p.stmtNode "defer" [← lowerExpr s call])
  | .send p channel value => do
    let channel ← lowerExpr s channel
    let value ← lowerExpr s value
    Lower.ofStmt p (p.stmtNode "send" [channel, value])
  | .block p list => do Lower.ofStmt p (p.stmtNode "block" (← lowerStmts s list))
  | .cond p init test body other => do
    let init ← lowerStmt? s init
    let test ← lowerExpr s test
    let body ← lowerStmt s body
    let other ← lowerStmt? s other
    Lower.ofStmt p (p.stmtNode "if" (init ++ [test, body] ++ other))
  | .loop p init test post body => do
    let init ← lowerStmt? s init
    let test ← lowerExpr? s test
    let post ← lowerStmt? s post
    let body ← lowerStmt s body
    Lower.ofStmt p (p.stmtNode "for" (init ++ test ++ post ++ [body]))
  | .range p key value x body => do
    let key ← lowerRangeTarget s key
    let value ← lowerRangeTarget s value
    let body ← lowerStmt s body
    let x ← lowerExpr s x
    Lower.ofStmt p
      (.mk { p.nodeInfo .stmt with name := "range" } (some x) [] [] (key ++ value ++ [body]))
  | .switch p init tag body => do
    let init ← lowerStmt? s init
    let tag ← lowerExpr? s tag
    let body ← lowerStmt s body
    Lower.ofStmt p (p.stmtNode "switch" (init ++ tag ++ [body]))
  | .typeSwitch p init guard body => do
    let init ← lowerStmt? s init
    let guard ← lowerStmt? s guard
    let body ← lowerStmt s body
    Lower.ofStmt p (p.stmtNode "switch" (init ++ guard ++ [body]))
  | .select p body => do Lower.ofStmt p (p.stmtNode "select" [← lowerStmt s body])
  | .caseClause p list body => do
    let list ← lowerExprs s list
    let body ← lowerStmts s body
    Lower.ofStmt p (p.stmtNode "case" (list ++ body))
  | .commClause p comm body => do
    let comm ← lowerStmt? s comm
    let body ← lowerStmts s body
    Lower.ofStmt p (p.stmtNode "case" (comm ++ body))
  | .labeled p stmt => do Lower.ofStmt p (p.stmtNode "label" [← lowerStmt s stmt])
  | .branch p => Lower.ofStmt p (p.stmtNode "branch" [])
  | .empty p => Lower.ofStmt p (p.stmtNode "empty" [])

/-- Lowers the statements of a list. -/
def lowerStmts (s : Scope) : List Stmt → Lower (List Node)
  | [] => pure []
  | x :: xs => do return (← lowerStmt s x) :: (← lowerStmts s xs)

/-- Lowers an optional statement. -/
def lowerStmt? (s : Scope) : Option Stmt → Lower (List Node)
  | none => pure []
  | some x => do return [← lowerStmt s x]

end

/-- Lowers a function declaration. -/
def lowerDecl (c : Config) (d : FuncDecl) : Lower Node := do
  let stmts ← lowerStmts ⟨c, d.params⟩ (d.body.getD [])
  let node : Node := .mk { d.piece.nodeInfo .func with name := d.name } none [] [] stmts
  Lower.function node ⟨d.body, d.graph⟩
  Lower.ofStmt d.piece node

end AwaitLint.Source
