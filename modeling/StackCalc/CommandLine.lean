import StackCalc.CommandLine.Arguments
import StackCalc.Repl.Line
import StackCalc.Settings.Toml

/-!
The program on a host of its own: its arguments in the usual form, its settings in the TOML format,
and its lines from an input that is no terminal.
-/
namespace StackCalc.CommandLine

/-- The host that has the given files. -/
def Host.standard (read : FileReader) : Host where
  read
  arguments arguments := (Options.ofArguments arguments).mapError Report.ofStop
  document := Settings.toml
  editor := .ok .direct

/-- A run of the program where the files are the given ones. -/
def run (read : FileReader) (input : List UInt8) (arguments : List String) : Report :=
  (Host.standard read).run input arguments

/-- The paths that a run may read: those of the arguments, and those of the load commands among the
lines of the input. -/
def wantedPaths (input : List UInt8) (arguments : List String) : List String :=
  let loaded := (Input.lines input).filterMap fun line =>
    match Repl.Editor.direct.next line with
    | .line text _ =>
      match Repl.Command.ofLine? (Repl.trimmed text) with
      | some (.load path) => some path
      | _ => none
    | _ => none
  match Options.ofArguments arguments with
  | .ok o => o.settingsFile.toList ++ o.files ++ loaded
  | .error _ => []

end StackCalc.CommandLine
