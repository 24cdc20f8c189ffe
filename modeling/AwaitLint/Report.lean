import AwaitLint.Config.File
import AwaitLint.Directive
import AwaitLint.Source.Function
import AwaitLint.Verdict

/-!
# AwaitLint — reports on packages

`Package.check` judges every tracked value that the functions of a package make
and reports those that some path drops, unless a directive of the file silences
the report. After that it reports the directives that silenced nothing.
Generated files yield nothing, neither reports nor unused directives.
-/

namespace AwaitLint

open Source

/-- A file of a package. -/
structure SourceFile where
  name : String
  isGenerated : Bool
  comments : List Comment
  functions : List FuncDecl

/-- A package. -/
structure Package where
  /-- The import path. -/
  path : String
  files : List SourceFile

/-- A finding about a file. -/
inductive Diagnostic where
  /-- A value that some path drops. -/
  | unawaited (file : String) (span : Span)
  /-- A directive that silenced nothing, with the names that did not. -/
  | unusedDirective (file : String) (unused : UnusedDirective)
deriving DecidableEq, Repr

namespace Diagnostic

/-- The file of a finding. -/
def file : Diagnostic → String
  | unawaited file _ => file
  | unusedDirective file _ => file

/-- The category of a finding; none for directives. -/
def category : Diagnostic → String
  | unawaited _ _ => Directive.mustAwait
  | unusedDirective _ _ => ""

/-- The text of a finding. -/
def message : Diagnostic → String
  | unawaited _ _ => "asynchronous value must be awaited"
  | unusedDirective _ unused =>
    if unused.names.isEmpty then "unused mustawait:ignore directive"
    else "unused mustawait:ignore directive for checker(s): " ++ ", ".intercalate unused.names

end Diagnostic

/-- What was found so far in a file. -/
structure FileReport where
  directives : DirectiveMap
  /-- Values that some path drops, in the order of the source. -/
  unawaited : List Diagnostic := []
  log : List LogEntry := []

namespace FileReport

/-- Judges one value and reports it unless it is consumed or silenced. -/
def judge (r : FileReport) (c : Config) (file : String) (fe : FrontEnd) (target : Node) :
    Except Fault FileReport := do
  let decision ← c.decide fe target
  let r := { r with log := r.log ++ decision.log target }
  if decision.verdict.isConsumed then return r
  let (silenced, directives) := r.directives.suppress target.span.line Directive.mustAwait
  let found := if silenced then [] else [.unawaited file target.span]
  return { r with directives, unawaited := r.unawaited ++ found }

/-- The tracked values that a function makes, function literals included. -/
def targets (c : Config) (f : Function) : List Node :=
  (f.root.preorder fun _ => true).filter (c.isCandidate f.links)

/-- Judges the values of a function. -/
def checkFunction (r : FileReport) (c : Config) (file : String) (d : FuncDecl) :
    Except Fault FileReport :=
  if d.body.isNone then .ok r
  else
    let f := Function.ofDecl c d
    match targets c f with
    | [] => .ok r
    | found =>
      let entry : LogEntry :=
        ⟨"checking function",
          [("func", .text d.name), ("file", .text file), ("targets", .count found.length)]⟩
      found.foldlM (fun r target => r.judge c file f.frontEnd target)
        { r with log := r.log ++ [entry] }

/-- The directives of the file that silenced nothing. -/
def unused (r : FileReport) (file : String) : List Diagnostic :=
  (r.directives.unused [(Directive.mustAwait, true)]).map (.unusedDirective file)

end FileReport

/-- Judges the values of a file. Places count for the lines they stand on. -/
def SourceFile.check (c : Config) (f : SourceFile) : Except Fault FileReport :=
  f.functions.foldlM (fun r d => r.checkFunction c f.name d)
    { directives := DirectiveMap.build Position.line f.comments }

/-- All findings about a package, with the record of the decisions. -/
structure Report where
  diagnostics : List Diagnostic
  log : List LogEntry
deriving DecidableEq, Repr

/-- Checks a package: the values that some path drops, then the directives that
silenced nothing, both by file. -/
def Package.check (c : Config) (p : Package) : Except Fault Report := do
  let files := p.files.filter fun f => !f.isGenerated
  let reports ← files.mapM fun f => do return (f.name, ← f.check c)
  return {
    diagnostics :=
      reports.flatMap (fun (_, r) => r.unawaited)
        ++ reports.flatMap (fun (name, r) => r.unused name)
    log :=
      (reports.flatMap fun (_, r) => r.log).map fun e =>
        { e with fields := e.fields ++ [("package", .text p.path)] } }

/-! ## Runs -/

namespace Run

/-- A pass over the package whose result a run needs. -/
inductive Pass where
  /-- The pass that finds the function declarations. -/
  | inspector
  /-- The pass that builds the flow graphs. -/
  | flowGraphs
deriving DecidableEq, Repr

/-- The complaint about a missing pass. -/
def Pass.message : Pass → String
  | .inspector => "inspector analyzer result not found"
  | .flowGraphs => "ctrlflow analyzer result not found"

/-- Why a run has no report. -/
inductive Failure where
  /-- The result of a pass is missing. -/
  | missing (pass : Pass)
  /-- The configuration cannot be used. -/
  | config (cause : Config.LoadError)
  /-- A decision has no answer. -/
  | fault (cause : Fault)

/-- Checks a package under the settings of a run. -/
def check (missing : Option Pass) (settings : Except Config.LoadError Config) (p : Package) :
    Except Failure Report :=
  match missing, settings with
  | some pass, _ => .error (.missing pass)
  | none, .error cause => .error (.config cause)
  | none, .ok c =>
    match p.check c with
    | .error cause => .error (.fault cause)
    | .ok r => .ok r

end Run

end AwaitLint
