import StackCalc.Text.WhiteSpace

/-!
Commands to the interactive loop: lines that start with a colon. All other lines are source text.
-/
namespace StackCalc.Repl

open Text

inductive Command where
  | quit
  | stack
  | words
  | clear
  | load (path : String)
  | help
  | unknown (line : String)
  deriving DecidableEq, Repr

namespace Command

/-- The command of the given name. Only `load` makes use of an argument, and it needs one. -/
def ofName (line name argument : String) : Command :=
  match name with
  | "quit" | "q" => quit
  | "stack" | "s" => stack
  | "words" | "w" => words
  | "clear" => clear
  | "load" | "l" => if argument.isEmpty then unknown line else load argument
  | "help" | "h" => help
  | _ => unknown line

/-- The command on a line, or nothing if the line is source text. The name ends at the first white
space, and the argument is what remains, trimmed. -/
def ofLine? (line : String) : Option Command :=
  match line.toList with
  | ':' :: rest =>
    let name := rest.takeWhile (!isWhiteSpace ·)
    let argument := trim (rest.dropWhile (!isWhiteSpace ·))
    some (ofName line (String.ofList name) (String.ofList argument))
  | _ => none

end Command

end StackCalc.Repl
