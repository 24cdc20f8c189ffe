import AwaitLint.Source.GoType
import AwaitLint.Tree.Node

/-!
# AwaitLint — syntax of Go source

Type-checked Go functions as the analyses read them: statements and expressions
with what the type checker found out about each, and the control flow graph of
every function body. A piece of syntax has a number that no other one has; flow
graphs refer to these numbers.
-/

namespace AwaitLint.Source

/-! ## Objects -/

/-- The scope that declares a variable. -/
inductive VarScope where
  /-- A field of a struct. -/
  | field
  | package
  /-- Any scope within a function. -/
  | inner
deriving DecidableEq, Repr

/-- A declared variable; `id` tells variables apart. -/
structure VarObject where
  id : Nat
  name : String
  type : GoType
  scope : VarScope

/-- A declared function. -/
structure FuncObject where
  name : String
  /-- The import path of its package. -/
  pkg : String
  /-- Whether it has a receiver. -/
  isMethod : Bool
deriving DecidableEq, Repr

/-- What an identifier denotes, as far as it matters here. -/
inductive Object where
  | var (v : VarObject)
  | func (f : FuncObject)
  | builtin (name : String)

/-! ## Flow graphs -/

/-- A node of a flow graph. -/
inductive FlowNode where
  /-- The piece of syntax with a number, other than a return statement. -/
  | piece (number : Nat)
  /-- The return statement with a number. -/
  | returnStmt (number : Nat)
  /-- The return at the end of a body without a return statement. -/
  | implicitReturn
deriving DecidableEq, Repr

/-- Whether the function returns at the node. -/
def FlowNode.isReturn : FlowNode → Bool
  | piece _ => false
  | returnStmt _ | implicitReturn => true

/-- A block of a flow graph. -/
structure FlowBlock where
  nodes : List FlowNode
  /-- The successors; of two, the first is taken when the condition holds. -/
  succs : List Nat
  /-- Whether the block is reached at all. -/
  live : Bool
deriving DecidableEq, Repr

/-- Whether a block ends in a return. -/
def FlowBlock.returns (b : FlowBlock) : Bool := b.nodes.getLast?.any FlowNode.isReturn

/-- The control flow graph of a body, the first block being the start. -/
abbrev FlowGraph := List FlowBlock

/-! ## Expressions and statements -/

/-- How a selector selects. -/
inductive Selection where
  | field
  | method
  | methodExpr
deriving DecidableEq, Repr

/-- The number and place of a piece of syntax. -/
structure Piece where
  number : Nat
  span : Span
deriving DecidableEq, Repr

/-- What is known of an expression. -/
structure ExprInfo extends Piece where
  type : Option GoType := none
  /-- Whether the expression denotes a type. -/
  isType : Bool := false

mutual

/-- A Go expression. -/
inductive Expr where
  | ident (info : ExprInfo) (name : String) (object : Option Object)
  | paren (info : ExprInfo) (x : Expr)
  /-- `object` is what the selected name denotes; `selection` is absent in a
  name qualified by a package. -/
  | selector (info : ExprInfo) (x : Expr) (name : String) (object : Option Object)
      (selection : Option Selection)
  | call (info : ExprInfo) (function : Expr) (args : List Expr) (callee : Option Object)
  | composite (info : ExprInfo) (elements : List Expr)
  | unary (info : ExprInfo) (op : String) (x : Expr)
  | binary (info : ExprInfo) (op : String) (x y : Expr)
  | keyValue (info : ExprInfo) (key value : Expr)
  /-- `params` are the variables of its parameters and results. -/
  | funcLit (info : ExprInfo) (params : List Nat) (body : List Stmt) (graph : Option FlowGraph)
  | index (info : ExprInfo) (x : Expr) (indices : List Expr)
  /-- `bounds` are those of low, high and max that are given. -/
  | slice (info : ExprInfo) (x : Expr) (bounds : List Expr)
  | star (info : ExprInfo) (x : Expr)
  | typeAssert (info : ExprInfo) (x : Expr)
  /-- A literal, or a type that is no name. -/
  | atom (info : ExprInfo)

/-- A Go statement, clause or specification of values. -/
inductive Stmt where
  | expr (piece : Piece) (x : Expr)
  | assign (piece : Piece) (token : String) (targets values : List Expr)
  | incDec (piece : Piece) (token : String) (x : Expr)
  /-- A declaration with its keyword and its specifications of values. -/
  | decl (piece : Piece) (keyword : String) (specs : List Stmt)
  | valueSpec (piece : Piece) (names values : List Expr)
  | ret (piece : Piece) (results : List Expr)
  | go (piece : Piece) (call : Expr)
  | defer (piece : Piece) (call : Expr)
  | send (piece : Piece) (channel value : Expr)
  | block (piece : Piece) (list : List Stmt)
  | cond (piece : Piece) (init : Option Stmt) (test : Expr) (body : Stmt) (other : Option Stmt)
  | loop (piece : Piece) (init : Option Stmt) (test : Option Expr) (post : Option Stmt)
      (body : Stmt)
  | range (piece : Piece) (key value : Option Expr) (x : Expr) (body : Stmt)
  | switch (piece : Piece) (init : Option Stmt) (tag : Option Expr) (body : Stmt)
  | typeSwitch (piece : Piece) (init : Option Stmt) (guard : Option Stmt) (body : Stmt)
  | select (piece : Piece) (body : Stmt)
  | caseClause (piece : Piece) (list : List Expr) (body : List Stmt)
  | commClause (piece : Piece) (comm : Option Stmt) (body : List Stmt)
  | labeled (piece : Piece) (stmt : Stmt)
  | branch (piece : Piece)
  | empty (piece : Piece)

end

instance : Inhabited Expr := ⟨.atom { number := 0, span := {} }⟩

instance : Inhabited Stmt := ⟨.empty { number := 0, span := {} }⟩

namespace Expr

/-- What is known of the expression. -/
def info : Expr → ExprInfo
  | ident info _ _ => info
  | paren info _ => info
  | selector info _ _ _ _ => info
  | call info _ _ _ => info
  | composite info _ => info
  | unary info _ _ => info
  | binary info _ _ _ => info
  | keyValue info _ _ => info
  | funcLit info _ _ _ => info
  | index info _ _ => info
  | slice info _ _ => info
  | star info _ => info
  | typeAssert info _ => info
  | atom info => info

/-- The reduced type of the expression. -/
def valueType (e : Expr) : ValueType := (e.info.type.map GoType.toValueType).getD .unknown

/-- The expression within its parentheses. -/
def unparen : Expr → Expr
  | paren _ x => unparen x
  | e => e

end Expr

/-- A function declaration. -/
structure FuncDecl where
  piece : Piece
  name : String
  /-- The variables of its receiver, parameters and results. -/
  params : List Nat
  /-- The statements; absent in a declaration without a body. -/
  body : Option (List Stmt)
  graph : Option FlowGraph

/-! ## Parts

The expressions and statements within a piece of syntax, function literals
being listed but not entered. -/

mutual

/-- The expression and those within it. -/
def Expr.parts : Expr → List Expr
  | .paren i x => .paren i x :: x.parts
  | .selector i x n o s => .selector i x n o s :: x.parts
  | .call i f args c => .call i f args c :: (f.parts ++ partsOfExprs args)
  | .composite i elements => .composite i elements :: partsOfExprs elements
  | .unary i op x => .unary i op x :: x.parts
  | .binary i op x y => .binary i op x y :: (x.parts ++ y.parts)
  | .keyValue i k v => .keyValue i k v :: (k.parts ++ v.parts)
  | .index i x indices => .index i x indices :: (x.parts ++ partsOfExprs indices)
  | .slice i x bounds => .slice i x bounds :: (x.parts ++ partsOfExprs bounds)
  | .star i x => .star i x :: x.parts
  | .typeAssert i x => .typeAssert i x :: x.parts
  | .ident i n o => [.ident i n o]
  | .funcLit i ps b g => [.funcLit i ps b g]
  | .atom i => [.atom i]

/-- The expressions of a list and those within them. -/
def partsOfExprs : List Expr → List Expr
  | [] => []
  | e :: es => e.parts ++ partsOfExprs es

/-- An optional expression and those within it. -/
def partsOfExpr? : Option Expr → List Expr
  | none => []
  | some e => e.parts

/-- The expressions within a statement. -/
def Stmt.parts : Stmt → List Expr
  | .expr _ x => x.parts
  | .assign _ _ targets values => partsOfExprs targets ++ partsOfExprs values
  | .incDec _ _ x => x.parts
  | .decl _ _ specs => partsOfStmts specs
  | .valueSpec _ names values => partsOfExprs names ++ partsOfExprs values
  | .ret _ results => partsOfExprs results
  | .go _ call => call.parts
  | .defer _ call => call.parts
  | .send _ channel value => channel.parts ++ value.parts
  | .block _ list => partsOfStmts list
  | .cond _ init test body other =>
    partsOfStmt? init ++ test.parts ++ body.parts ++ partsOfStmt? other
  | .loop _ init test post body =>
    partsOfStmt? init ++ partsOfExpr? test ++ partsOfStmt? post ++ body.parts
  | .range _ key value x body =>
    partsOfExpr? key ++ partsOfExpr? value ++ x.parts ++ body.parts
  | .switch _ init tag body => partsOfStmt? init ++ partsOfExpr? tag ++ body.parts
  | .typeSwitch _ init guard body => partsOfStmt? init ++ partsOfStmt? guard ++ body.parts
  | .select _ body => body.parts
  | .caseClause _ list body => partsOfExprs list ++ partsOfStmts body
  | .commClause _ comm body => partsOfStmt? comm ++ partsOfStmts body
  | .labeled _ stmt => stmt.parts
  | .branch _ => []
  | .empty _ => []

/-- The expressions within the statements of a list. -/
def partsOfStmts : List Stmt → List Expr
  | [] => []
  | s :: ss => s.parts ++ partsOfStmts ss

/-- The expressions within an optional statement. -/
def partsOfStmt? : Option Stmt → List Expr
  | none => []
  | some s => s.parts

end

mutual

/-- The statement and those within it, the statements of function literals left
out. -/
def Stmt.nested : Stmt → List Stmt
  | .decl p keyword specs => .decl p keyword specs :: nestedInStmts specs
  | .block p list => .block p list :: nestedInStmts list
  | .cond p init test body other =>
    .cond p init test body other :: (nestedInStmt? init ++ body.nested ++ nestedInStmt? other)
  | .loop p init test post body =>
    .loop p init test post body :: (nestedInStmt? init ++ nestedInStmt? post ++ body.nested)
  | .range p key value x body => .range p key value x body :: body.nested
  | .switch p init tag body => .switch p init tag body :: (nestedInStmt? init ++ body.nested)
  | .typeSwitch p init guard body =>
    .typeSwitch p init guard body :: (nestedInStmt? init ++ nestedInStmt? guard ++ body.nested)
  | .select p body => .select p body :: body.nested
  | .caseClause p list body => .caseClause p list body :: nestedInStmts body
  | .commClause p comm body => .commClause p comm body :: (nestedInStmt? comm ++ nestedInStmts body)
  | .labeled p stmt => .labeled p stmt :: stmt.nested
  | s => [s]

/-- The statements of a list and those within them. -/
def nestedInStmts : List Stmt → List Stmt
  | [] => []
  | s :: ss => s.nested ++ nestedInStmts ss

/-- An optional statement and those within it. -/
def nestedInStmt? : Option Stmt → List Stmt
  | none => []
  | some s => s.nested

end

end AwaitLint.Source
