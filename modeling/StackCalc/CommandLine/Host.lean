import StackCalc.Prelude
import StackCalc.Repl
import StackCalc.Settings.Document

/-!
A run of the program: settings, source files, an expression and the interactive loop, in this order.
What the program finds outside itself is given as a host, and so is its whole input, so that a run
is a function of them and of the arguments. The first stage that fails ends the run.
-/
namespace StackCalc.CommandLine

/-- What the arguments ask for. -/
structure Options where
  /-- Source files to load, in order. -/
  files : List String := []
  expression : Option String := none
  interactive : Bool := false
  noPrelude : Bool := false
  settingsFile : Option String := none
  maxDepth : Option Nat := none
  verbose : Bool := false
  deriving DecidableEq, Repr

/-- What a run leaves behind. -/
structure Report where
  exitCode : Nat := 0
  output : Output := {}
  /-- Messages about failures, apart from the output. -/
  errors : List String := []

def Report.failure (message : String) (output : Output := {}) : Report where
  exitCode := 1
  output := output
  errors := [message]

/-- What the program finds outside itself. -/
structure Host where
  /-- The files. -/
  read : FileReader
  /-- What the arguments of a run ask for, or the report of a run that they end by themselves. -/
  arguments : List String → Except Report Options
  /-- The format of settings files. -/
  document : DocumentReader
  /-- The line editor of the interactive loop, or the reason why there is none. -/
  editor : Except String Repl.Editor

/-- The settings of a file or the defaults, and on top of them those of the arguments. -/
def Host.settings (host : Host) (o : Options) : Except String Settings := do
  let base ← match o.settingsFile with
    | none => pure {}
    | some path =>
      match host.document.settingsIn host.read path with
      | .ok settings => pure settings
      | .error fault => throw s!"{path}: {fault.message}"
  let base := if o.noPrelude then { base with loadPrelude := false } else base
  match o.maxDepth with
  | none => return base
  | some 0 => throw "--max-depth must be at least 1"
  | some depth => return { base with maxDepth := depth }

/-- Loads source files in order, up to the first that fails. -/
def loadFiles (read : FileReader) : List String → EStateM String Session Unit
  | [] => pure ()
  | path :: rest => do
    fun s =>
      match loadFile read path s with
      | .ok () t => .ok () t
      | .error fault t => .error (fault.message path) t
    loadFiles read rest

/-- Runs an expression and writes the value that it leaves on top of the stack. -/
def showExpression (source : String) : EStateM String Session Unit := fun s =>
  match Eval.evaluateLine source s with
  | .error error t => .error error.message t
  | .ok _ t =>
    match t.stack.top? with
    | some value => .ok () (Repl.tell (value.render ++ "\n") t)
    | none => .ok () t

/-- Whether the interactive loop follows the files and the expression. -/
def Options.startsLoop (o : Options) : Bool :=
  o.interactive || (o.files.isEmpty && o.expression.isNone)

/-- The files and the expression, as far as they are given. -/
def batch (read : FileReader) (o : Options) : EStateM String Session Unit := do
  loadFiles read o.files
  match o.expression with
  | some source => showExpression source
  | none => pure ()

namespace Host

/-- The interactive loop, which can still read the input if no program has read from it. -/
def loop (host : Host) (input : List UInt8) (s : Session) : Report :=
  match host.editor with
  | .error reason => .failure s!"Error initializing readline: {reason}" s.output
  | .ok editor =>
    let pending := if s.input.length = input.length then input else []
    match Repl.run host.read editor pending s with
    | (.goodbye, t) => { output := t.output }
    | (.failed reason, t) => { output := t.output, errors := [s!"Error: {reason}"] }

/-- A run with valid arguments. -/
def runOptions (host : Host) (input : List UInt8) (o : Options) : Report :=
  match host.settings o with
  | .error message => .failure s!"Error: {message}"
  | .ok settings =>
    match Session.start settings input {} with
    | .error error => .failure s!"Error loading prelude: {error.message}"
    | .ok s =>
      match batch host.read o s with
      | .error message t => .failure s!"Error: {message}" t.output
      | .ok () t => if o.startsLoop then host.loop input t else { output := t.output }

/-- A run of the program. -/
def run (host : Host) (input : List UInt8) (arguments : List String) : Report :=
  match host.arguments arguments with
  | .ok o => host.runOptions input o
  | .error report => report

end Host

end StackCalc.CommandLine
