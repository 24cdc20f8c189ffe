import AwaitLint.Config
import AwaitLint.Flow.ControlFlow
import AwaitLint.Flow.DataFlow

/-!
# AwaitLint — verdicts

Whether an asynchronous value is consumed on every path of the function that
produces it. `Analysis.decide` asks in turn whether the value

* is sunk: the outermost call around it discards it on purpose,
* is awaited within its own statement,
* is returned,
* is assigned to variables, each of which is awaited, returned or added to an
  awaited list wherever the assignment reaches (`Analysis.viaVariable`),
* is added to a list that is awaited as a whole afterwards (`Analysis.viaList`).

A tree may hold references without a variable; a question about the type of such
a variable has no answer, and the decision is then a `Fault`.
-/

namespace AwaitLint

/-- The outcome for one value. -/
inductive Verdict where
  /-- Some path drops the value. -/
  | notConsumed
  /-- The value is awaited within its own statement. -/
  | awaited
  /-- The calls around the value end in a sink. -/
  | sunk
  /-- The value is handed to the caller. -/
  | returned
  /-- The control flow of the function is not known. -/
  | unsupported
  /-- No instruction evaluates the value. -/
  | noOwner
  /-- Every use of the assigned variables consumes them. -/
  | viaVariable
  /-- The value is added to a list that is awaited as a whole. -/
  | viaList
deriving DecidableEq, Repr

namespace Verdict

/-- The verdicts in the order of their codes. -/
def all : List Verdict :=
  [notConsumed, awaited, sunk, returned, unsupported, noOwner, viaVariable, viaList]

/-- The written form. -/
def text : Verdict → String
  | notConsumed => "not consumed"
  | awaited => "awaited"
  | sunk => "sunk"
  | returned => "returned"
  | unsupported => "unsupported control flow"
  | noOwner => "no owner"
  | viaVariable => "awaited via variable"
  | viaList => "awaited via list"

/-- The written form of a code. -/
def describe (code : Nat) : String := (all[code]?).elim "verdict(?)" text

/-- Whether no report is due. -/
def isConsumed (v : Verdict) : Bool := v ≠ .notConsumed

/-- Whether no report is due for a code; unknown codes are not reported. -/
def describesConsumed (code : Nat) : Bool := (all[code]?).elim true isConsumed

end Verdict

/-- Why a program cannot be judged. -/
inductive Fault where
  /-- The type of a reference without a variable was asked for. -/
  | unresolvedReference
  /-- The body has no block at all. -/
  | noBlocks
deriving DecidableEq, Repr

/-- A verdict, with what kept the analysis from a better one. -/
structure Decision where
  verdict : Verdict
  /-- The reason for `Verdict.unsupported`. -/
  obstacle : Option FlowError := none
deriving DecidableEq, Repr

/-! ## Questions about the tree -/

/-- Whether the node makes a tracked value that has to be consumed. -/
def Config.isCandidate (c : Config) (links : Links) (n : Node) : Bool :=
  [Kind.call, .new, .fieldRef, .propertyRef].contains n.kind
    && !links.isAssignTarget n && !c.isExcluded n.name && c.tracks n.type

/-- Whether the outermost call or property around a call, within its function,
is a property or a sink. -/
def Config.endsInSink (c : Config) (links : Links) (call : Node) : Bool :=
  let chain := (call :: links.ancestors call).takeWhile fun n => n.kind != .func
  let outermost :=
    ((chain.filter fun n => n.kind = .call || n.kind = .propertyRef).getLast?).getD call
  outermost.kind != .call || c.isSink outermost.name

/-- Whether an await encloses the node within its statement. -/
def Links.isAwaited (links : Links) (n : Node) : Bool :=
  ((links.ancestors n).takeWhile fun p => !p.kind.isStmt).any fun p => p.kind = .await

/-- Whether the node is a return statement. -/
def Node.isReturn (n : Node) : Bool := n.kind = .stmt && n.name == "return"

/-- Whether the node, possibly converted, is a result of a return statement. -/
def Links.isReturned (links : Links) (n : Node) : Bool :=
  let above :=
    match links.parent? n with
    | some p => if p.kind = Kind.conversion then links.parent? p else some p
    | none => none
  above.any Node.isReturn

/-- Whether an await is a direct child. -/
def Node.hasDirectAwait (n : Node) : Bool := n.children.any fun c => c.kind = .await

/-- Whether the node is a return statement with `v`, possibly converted, among
its results. -/
def Node.returnsVar (n : Node) (v : Variable) : Bool :=
  n.isReturn && n.args.any fun r =>
    let result := if r.kind = Kind.conversion then r.operand else some r
    result.any fun r => r.kind = .localRef && r.var == some v

/-- The first local reference to `v` under a node. -/
def Node.localRef? (n : Node) (v : Variable) : Option Node :=
  n.find? fun c => c.kind = .localRef && c.var == some v

/-! ## The analysis of one function -/

/-- What decisions about one function rest on. -/
structure Analysis where
  config : Config
  links : Links
  cf : ControlFlow
  df : DataFlow

namespace Analysis

/-- The control and data flow of the function around a node. -/
def around (c : Config) (fe : FrontEnd) (target : Node) : Except FlowError Analysis :=
  match ControlFlow.around fe target with
  | .error e => .error e
  | .ok cf => .ok { config := c, links := fe.links, cf, df := DataFlow.solve fe cf.body }

/-- The type of a referenced variable. -/
def typeOf (v : Option Variable) : Except Fault ValueType :=
  match v with
  | some v => .ok v.type
  | none => .error .unresolvedReference

/-- The variables whose type satisfies `p`; all of them have to be resolved. -/
def varsWhere (p : ValueType → Bool) : List (Option Variable) → Except Fault (List Variable)
  | [] => .ok []
  | none :: _ => .error .unresolvedReference
  | some v :: vs =>
    match varsWhere p vs with
    | .error f => .error f
    | .ok found => .ok (if p v.type then v :: found else found)

/-- Whether an instruction is one of the listed ones. -/
def listed (instrs : List Instr) (i : Instr) : Bool := instrs.any fun j => j.id == i.id

/-- The assignment that a branch of a conditional flows into: an instruction in
a successor block that assigns a conditional with the owner's node or the target
as a branch. -/
def conditionalOwner? (a : Analysis) (owner : Instr) (target : Node) : Option Instr :=
  (a.cf.successorInstrs owner).find? fun i =>
    i.node.kind = .assign && i.node.values.any fun value =>
      value.kind = .conditional
        && (owner.node.isOneOf value.args || target.isOneOf value.args)

/-! ### Lists -/

/-- The list that `item` is added to at `site`: the receiver of an add call, or
the one list variable that a collection literal initialises. -/
def listAt (a : Analysis) (site item : Node) : Except Fault (Option Variable) :=
  match site.kind with
  | .collection =>
    if !item.isOneOf site.args then .ok none
    else
      match varsWhere a.config.isList (a.df.definedAt site) with
      | .error f => .error f
      | .ok [v] => .ok (some v)
      | .ok _ => .ok none
  | .call =>
    if !(item.isArgOf site && a.config.isAddMethod site.name) then .ok none
    else
      match site.operand with
      | none => .ok none
      | some recv =>
        if recv.kind ≠ .localRef then .ok none
        else
          match recv.var with
          | none => .error .unresolvedReference
          | some v => .ok (if a.config.isList v.type then some v else none)
  | _ => .ok none

/-- Whether the node awaits a whole list: a call that combines tracked values,
or a list of tracked values, possibly converted. -/
def awaitsList (a : Analysis) (n : Node) : Except Fault Bool :=
  if n.kind ≠ .await then .ok false
  else
    match n.operand with
    | none => .ok false
    | some x =>
      let operand :=
        match x.operand with
        | some y => if x.kind = Kind.conversion then y else x
        | none => x
      match operand.kind with
      | .call => .ok (a.config.isBulkAwait operand.name && a.config.tracks operand.type)
      | .localRef => do return a.config.isList (← typeOf operand.var)
      | _ => .ok false

/-- Whether all definitions of a local item run into the add site. -/
def reachesSite (a : Analysis) (item : Node) (owner : Instr) : Bool :=
  item.kind ≠ .localRef ||
    (a.df.definitionsOf item.var).all fun d => listed (a.cf.postDominators d) owner

/-- Whether a definition of the list reaches an instruction after the add site,
on every path, that awaits a whole list. -/
def listAwaitedAfter (a : Analysis) (list : Variable) (owner : Instr) : Except Fault Bool :=
  let later := a.cf.postDominators owner
  (a.df.definitionsOf (some list)).anyM fun d =>
    (a.df.reachingFrom d.id []).anyM fun s =>
      if listed later s then s.node.children.anyM a.awaitsList else .ok false

/-- Whether `item` is added to a list on every path and the list is awaited as a
whole afterwards. -/
def viaList (a : Analysis) (item : Node) : Except Fault Bool :=
  let item :=
    match a.links.parent? item with
    | some p => if p.kind = .conversion then p else item
    | none => item
  match a.links.parent? item with
  | none => .ok false
  | some site =>
    match a.listAt site item with
    | .error f => .error f
    | .ok none => .ok false
    | .ok (some list) =>
      match a.df.owner? site with
      | none => .ok false
      | some owner => if a.reachesSite item owner then a.listAwaitedAfter list owner else .ok false

/-! ### Variables -/

/-- Whether every reached instruction is executed after the source on every path
and awaits something or returns the variable. -/
def consumedDirectly (a : Analysis) (source : Instr) (v : Variable) (uses : List Instr) : Bool :=
  let later := a.cf.postDominators source
  uses.all fun s => listed later s && (s.node.hasDirectAwait || s.node.returnsVar v)

/-- Whether every reached instruction adds the variable to an awaited list. -/
def consumedByLists (a : Analysis) (v : Variable) (uses : List Instr) : Except Fault Bool :=
  uses.allM fun s =>
    match s.node.localRef? v with
    | some ref => a.viaList ref
    | none => .ok false

/-- Whether the value that `source` stores in `v` is consumed. -/
def consumedIn (a : Analysis) (source : Instr) (v : Variable) : Except Fault Bool :=
  let uses := a.df.reachingFrom source.id [some v]
  if uses.isEmpty then .ok false
  else if a.consumedDirectly source v uses then .ok true
  else a.consumedByLists v uses

/-- Whether the values that `source` stores in `vars` are all consumed. -/
def viaVariable (a : Analysis) (source : Instr) (vars : List Variable) : Except Fault Bool :=
  vars.allM (a.consumedIn source)

/-! ### The decision -/

/-- The instruction that stores the value: the owner, or the assignment that a
conditional flows into. -/
def source (a : Analysis) (owner : Instr) (target : Node) : Instr :=
  (a.conditionalOwner? owner target).getD owner

/-- The tracked variables that the source writes, if it is an assignment. -/
def sourceVars (a : Analysis) (source : Instr) : Except Fault (List Variable) :=
  if source.node.kind = .assign then
    varsWhere a.config.tracks (a.df.definedAt source.node)
  else .ok []

/-- The verdict on a value that is evaluated by `owner`. -/
def judge (a : Analysis) (owner : Instr) (target : Node) : Except Fault Verdict := do
  let source := a.source owner target
  match ← a.sourceVars source with
  | [] => return if ← a.viaList target then .viaList else .notConsumed
  | v :: vs => return if ← a.viaVariable source (v :: vs) then .viaVariable else .notConsumed

end Analysis

/-- The decision on a value. -/
def Config.decide (c : Config) (fe : FrontEnd) (target : Node) : Except Fault Decision :=
  if target.kind = .call && c.endsInSink fe.links target then .ok ⟨.sunk, none⟩
  else if fe.links.isAwaited target then .ok ⟨.awaited, none⟩
  else if fe.links.isReturned target then .ok ⟨.returned, none⟩
  else
    match Analysis.around c fe target with
    | .error .noBlocks => .error .noBlocks
    | .error e => .ok ⟨.unsupported, some e⟩
    | .ok a =>
      match a.df.owner? target with
      | none => .ok ⟨.noOwner, none⟩
      | some owner => do return ⟨← a.judge owner target, none⟩

/-- Whether the value is consumed on every path. -/
def Config.isConsumed (c : Config) (fe : FrontEnd) (target : Node) : Except Fault Bool := do
  return (← c.decide fe target).verdict.isConsumed

/-! ## The record of a decision -/

/-- A value in the record that decisions leave. -/
inductive LogValue where
  | text (s : String)
  | count (n : Nat)
deriving DecidableEq, Repr

/-- An entry of the record that decisions leave. -/
structure LogEntry where
  message : String
  fields : List (String × LogValue)
deriving DecidableEq, Repr

/-- An entry about an obstacle to a decision. -/
def LogEntry.obstacle (message : String) (target : Node) (reason : String) : LogEntry :=
  ⟨message, [("target", .text target.name), ("error", .text reason)]⟩

/-- The record of a decision: what stood in the way, then the verdict. -/
def Decision.log (d : Decision) (target : Node) : List LogEntry :=
  let obstacles :=
    match d.verdict, d.obstacle with
    | .unsupported, some e => [.obstacle "skipping body" target e.message]
    | .noOwner, _ => [.obstacle "no owner" target DataFlow.noOwner]
    | _, _ => []
  obstacles ++
    [⟨"checked",
      [("target", .text target.name), ("kind", .text target.kind.text),
       ("verdict", .text d.verdict.text)]⟩]

end AwaitLint
