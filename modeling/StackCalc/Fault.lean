import StackCalc.Text.Position
import StackCalc.Token.Bracket

/-!
Causes of failure outside the language's own operations: texts that cannot be read, and streams and
files that refuse to work. Each cause carries the facts that its message states.
-/
namespace StackCalc

open Text

/-- Why a text is no program, or no number. -/
inductive ParseFault where
  /-- A quote mark with nothing after it. -/
  | loneQuoteMark (position : Position)
  /-- A closing bracket that meets an opening bracket of the other kind. -/
  | mismatch (closer : Bracket) (position : Position) (opener : Bracket) (opened : Position)
  /-- A closing bracket where none is open. -/
  | unexpectedCloser (closer : Bracket) (position : Position)
  /-- An opening bracket that is never closed. -/
  | unclosed (opener : Bracket) (position : Position)
  /-- A line of input that holds no number. -/
  | notANumber (line : String)
  /-- A fault that a host reports in its own words. -/
  | custom (text : String)
  deriving DecidableEq, Repr

def ParseFault.message : ParseFault → String
  | loneQuoteMark position => s!"quote marker without a name at {position.text}"
  | mismatch closer position opener opened =>
    s!"'{closer.closing}' at {position.text} does not match '{opener.opening}' at {opened.text}"
  | unexpectedCloser closer position => s!"unexpected '{closer.closing}' at {position.text}"
  | unclosed opener position => s!"unclosed '{opener.opening}' at {position.text}"
  | notANumber line => s!"expected a number on input, got '{line}'"
  | custom text => text

/-- Why a stream or a file cannot be used. -/
inductive IoFault where
  | noSuchFile
  | isDirectory
  /-- A path that goes on below a file. -/
  | notDirectory
  | nameTooLong
  | nulInName
  /-- Bytes that are no UTF-8 text. -/
  | invalidUtf8
  /-- A limited stream that has no room for a byte. -/
  | outputFull
  | flushRefused
  /-- A fault that a host's stream reports in its own words. -/
  | custom (text : String)
  deriving DecidableEq, Repr

def IoFault.message : IoFault → String
  | noSuchFile => "No such file or directory (os error 2)"
  | isDirectory => "Is a directory (os error 21)"
  | notDirectory => "Not a directory (os error 20)"
  | nameTooLong => "File name too long (os error 36)"
  | nulInName => "file name contained an unexpected NUL byte"
  | invalidUtf8 => "stream did not contain valid UTF-8"
  | outputFull => "output full"
  | flushRefused => "flush refused"
  | custom text => text

end StackCalc
