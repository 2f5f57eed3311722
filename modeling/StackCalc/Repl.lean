import StackCalc.Evaluation.Run
import StackCalc.Files
import StackCalc.Repl.Command
import StackCalc.Repl.Editor

/-!
The interactive loop. Each line is a command or source text that runs in the session; errors are
reported, and the session goes on with what the failed line left.
-/
namespace StackCalc

/-- Why a source file was not loaded to its end. -/
inductive LoadFault where
  | unreadable (fault : IoFault)
  | failed (error : EvalError)
  deriving DecidableEq, Repr

/-- The fault behind the path of the file that it is about. -/
def LoadFault.message (path : String) : LoadFault → String
  | unreadable fault => s!"{path}: {fault.message}"
  | failed error => s!"{path}: {error.message}"

/-- Reads a source file and runs it in the session. -/
def loadFile (read : FileReader) (path : String) : EStateM LoadFault Session Unit := fun s =>
  match read.readText path with
  | .error fault => .error (.unreadable fault) s
  | .ok source =>
    match Eval.load source s with
    | .ok () t => .ok () t
    | .error error t => .error (.failed error) t

namespace Repl

/-- An answer, and whether the loop ends with it. -/
structure Reply where
  text : String
  quits : Bool := false
  deriving DecidableEq, Repr

def Reply.line (text : String) : Reply where
  text := text ++ "\n"

def Reply.lines (texts : List String) : Reply where
  text := String.join (texts.map (· ++ "\n"))

/-- A number on the right of three places, or of more if it needs them. -/
def placed (n : Nat) : String :=
  let digits := toString n
  String.ofList (List.replicate (3 - digits.length) ' ') ++ digits

/-- All values of the stack, the top last, each with its distance from the top. -/
def stackLines (s : Stack) : List String :=
  if s.isEmpty then ["(empty)"]
  else (s.values.zipIdx.map fun (value, places) => s!"{placed places}: {value.render}").reverse

/-- All bound words, each with its aliases if it has some. -/
def wordLines (d : Dictionary) : List String :=
  d.words.map fun (name, aliases) =>
    let names := String.intercalate " " aliases
    if aliases.isEmpty then name else s!"{name} (aliases: {names})"

def helpLines : List String :=
  ["",
    "calc REPL Commands:",
    "  :quit, :q        Exit the REPL",
    "  :stack, :s       Show the whole stack (0 is the top)",
    "  :words, :w       List every bound word with its aliases",
    "  :clear           Empty the stack",
    "  :load FILE       Evaluate a source file in this session",
    "  :help            Show this help",
    "",
    "Usage:",
    "  - Type expressions to evaluate them; the top of the stack is shown",
    "  - The stack and definitions persist between lines",
    "  - Define words with \",name { body } def\"",
    "",
    "Examples:",
    "  calc> 3 4 add",
    "  7",
    "  calc> ,square { dup mul } def",
    "  calc> [1 2 3] { square } map",
    "  [1, 4, 9]",
    ""]

/-- The answer to source text: the value on top of the stack afterwards, or the error. -/
def respondToSource (source : String) (s : Session) : Reply × Session :=
  match Eval.evaluateLine source s with
  | .ok _ t =>
    match t.stack.top? with
    | some value => (.line value.render, t)
    | none => ({ text := "" }, t)
  | .error error t => (.line s!"Error: {error.message}", t)

def respondToCommand (read : FileReader) (s : Session) : Command → Reply × Session
  | .quit => ({ text := "", quits := true }, s)
  | .stack => (.lines (stackLines s.stack), s)
  | .words => (.lines (wordLines s.dictionary), s)
  | .clear => (.line "Stack cleared.", s.clearStack)
  | .load path =>
    match loadFile read path s with
    | .ok () t => (.line s!"Loaded {path}", t)
    | .error fault t => (.line s!"Error: {fault.message path}", t)
  | .help => (.lines helpLines, s)
  | .unknown line =>
    (.line s!"Unknown command: {line}. Type :help for available commands.", s)

/-- The answer to one line, and the session after it. -/
def respond (read : FileReader) (line : String) (s : Session) : Reply × Session :=
  match Command.ofLine? line with
  | some command => respondToCommand read s command
  | none => respondToSource line s

/-- Why the loop ended. -/
inductive Ending where
  /-- The user quit, or the input ended. -/
  | goodbye
  /-- The editor failed, for the given reason. -/
  | failed (reason : String)
  deriving DecidableEq, Repr

def banner : String :=
  "calc REPL (calcr). Type :help for commands, :quit to exit.\n\n"

def farewell : String :=
  "Goodbye!\n"

/-- The session after `text` was written to its output. -/
def tell (text : String) (s : Session) : Session :=
  match Output.write text s.output with
  | .ok () output => { s with output }
  | .error _ output => { s with output }

/-- A line of input without the white space at its ends. -/
def trimmed (line : String) : String :=
  String.ofList (Text.trim line.toList)

/-- Answers the lines that the editor finds in `pending`. Programs read what follows the line that
they stand on, and the first one that reads anything leaves nothing for the loop. -/
def answerLines (read : FileReader) (editor : Editor) (pending : List UInt8) (s : Session) :
    Ending × Session :=
  match _h : editor.next pending with
  | .endOfInput => (.goodbye, s)
  | .failed reason => (.failed reason, s)
  | .interrupted rest => answerLines read editor rest (tell "^C\n" s)
  | .line text rest =>
    let line := trimmed text
    if line.isEmpty then answerLines read editor rest s
    else
      let (reply, t) := respond read line { s with input := rest }
      let t := tell reply.text t
      if reply.quits then (.goodbye, t)
      else if t.input.length = rest.length then answerLines read editor rest t
      else answerLines read editor [] t
termination_by pending.length
decreasing_by
  · exact editor.progress (_h ▸ rfl)
  · exact editor.progress (_h ▸ rfl)
  · exact editor.progress (_h ▸ rfl)
  · -- nothing is less than what a line has been taken from
    have hrest : rest.length < pending.length := editor.progress (_h ▸ rfl)
    exact Nat.zero_lt_of_lt hrest

/-- The whole loop, from its banner on. -/
def run (read : FileReader) (editor : Editor) (pending : List UInt8) (s : Session) :
    Ending × Session :=
  match answerLines read editor pending (tell banner s) with
  | (.goodbye, t) => (.goodbye, tell farewell t)
  | (.failed reason, t) => (.failed reason, t)

end Repl

end StackCalc
