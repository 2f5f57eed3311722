/-!
The line editor, as far as the interactive loop sees it. It is given with the rest of the host, and
all that is known of it is that it comes to an end.
-/
namespace StackCalc.Repl

/-- What a line editor answers when it is asked for a line. -/
inductive Reading where
  /-- A line without its end, and the bytes that are left for the next one. -/
  | line (text : String) (rest : List UInt8)
  /-- The line was given up while it was typed. -/
  | interrupted (rest : List UInt8)
  | endOfInput
  /-- There is no line, for a reason in the editor's own words. -/
  | failed (reason : String)
  deriving DecidableEq, Repr

/-- The bytes that are left, if there can be a further reading. -/
def Reading.rest? : Reading → Option (List UInt8)
  | line _ rest | interrupted rest => some rest
  | endOfInput | failed _ => none

/-- How lines are read from the bytes of an input. -/
structure Editor where
  next : List UInt8 → Reading
  /-- A reading that may not be the last takes something from the input. -/
  progress {pending rest : List UInt8} : (next pending).rest? = some rest →
    rest.length < pending.length

end StackCalc.Repl
