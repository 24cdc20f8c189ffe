import AwaitLint.Flow.Body
import AwaitLint.Tree.Links

/-!
# AwaitLint — front ends

A front end answers what the analyses need to know of a program: the parent
links of its trees, the body of a function, and the local variables that a node
writes and reads. `Registry` is the front end over bodies that were registered
one by one, with the facts on variables read off the tree.
-/

namespace AwaitLint

/-- Why a function has no body. -/
inductive BodyError where
  /-- No body was registered. -/
  | unregistered
  /-- The function does not stem from the front end. -/
  | unknownFunction
  /-- The function is declared without a body. -/
  | declarationOnly
  /-- There is no control flow graph. -/
  | noFlowGraph
deriving DecidableEq, Repr

/-- The text of a missing body. -/
def BodyError.message : BodyError → String
  | .unregistered => "irtest: no body registered for function"
  | .unknownFunction => "function was not lowered by this front end"
  | .declarationOnly => "function has no body"
  | .noFlowGraph => "no control flow graph for function"

/-- The variables a node writes and reads, each listed once. A reference
without a variable counts as `none`. -/
structure DefUse where
  defs : List (Option Variable) := []
  uses : List (Option Variable) := []
deriving DecidableEq, Repr

namespace DefUse

/-- Appends `v` unless it is listed. -/
def insertOnce (vs : List (Option Variable)) (v : Option Variable) : List (Option Variable) :=
  if v ∈ vs then vs else vs ++ [v]

/-- Adds a written variable. -/
def define (du : DefUse) (v : Option Variable) : DefUse :=
  { du with defs := insertOnce du.defs v }

/-- Adds a read variable. -/
def use (du : DefUse) (v : Option Variable) : DefUse :=
  { du with uses := insertOnce du.uses v }

end DefUse

/-- What the analyses know of a program. -/
structure FrontEnd where
  links : Links
  /-- The body of a function. -/
  body : Node → Except BodyError Body
  /-- The locals and parameters that a node writes and reads. -/
  defUse : Node → DefUse

/-! ## Registered bodies -/

/-- Bodies registered one by one, and facts that replace those of the tree. -/
structure Registry where
  /-- The registered bodies, the last one first. -/
  bodies : List Body := []
  /-- Nodes with given facts, the last one first. -/
  given : List (Nat × DefUse) := []

namespace Registry

/-- Registers a body, which replaces an earlier one of the same function. -/
def add (r : Registry) (b : Body) : Registry := { r with bodies := b :: r.bodies }

/-- Fixes the facts on a node. -/
def setDefUse (r : Registry) (n : Node) (du : DefUse) : Registry :=
  { r with given := (n.id, du) :: r.given }

/-- The body of a function. -/
def bodyOf (r : Registry) (fn : Node) : Except BodyError Body :=
  match r.bodies.find? fun b => b.func.same fn with
  | some b => .ok b
  | none => .error .unregistered

/-- The facts read off the tree: a local on the left of an assignment is
written, any other is read. -/
def treeDefUse (links : Links) (n : Node) : DefUse :=
  (n.findAll fun c => c.kind = .localRef).foldl
    (fun du ref => if links.isAssignTarget ref then du.define ref.var else du.use ref.var) {}

/-- The facts on a node. -/
def defUseOf (r : Registry) (links : Links) (n : Node) : DefUse :=
  (r.given.lookup n.id).getD (treeDefUse links n)

/-- The registered bodies as a front end. -/
def frontEnd (r : Registry) (links : Links) : FrontEnd where
  links := links
  body := r.bodyOf
  defUse := r.defUseOf links

end Registry

end AwaitLint
