import StackCalc.Fault

/-!
Errors of an evaluation. Nothing in the language catches an error, so each one ends the evaluation,
and it says where the evaluation stood.
-/
namespace StackCalc

/-- What went wrong. -/
inductive ErrorKind where
  /-- An operation needs more operands than the stack holds. -/
  | stackUnderflow (needed available : Nat)
  | unknownWord (name : String)
  /-- An operand of the wrong kind. -/
  | typeMismatch (expected found : String)
  | divisionByZero
  | emptySequence
  /-- A body that did not leave one value in place of its operands. -/
  | arity (expected found : Nat)
  | parse (fault : ParseFault)
  | endOfInput
  /-- Calls nested deeper than the limit. -/
  | recursionLimit (limit : Nat)
  | io (fault : IoFault)
  deriving DecidableEq, Repr

def ErrorKind.message : ErrorKind → String
  | stackUnderflow needed available =>
    s!"stack underflow: needed {needed} value(s), found {available}"
  | unknownWord name => s!"unknown word '{name}'"
  | typeMismatch expected found => s!"type mismatch: expected {expected}, got {found}"
  | divisionByZero => "division by zero"
  | emptySequence => "empty sequence"
  | arity expected found =>
    s!"quotation must leave exactly {expected} value(s) on the stack, left {found}"
  | parse fault => s!"parse error: {fault.message}"
  | endOfInput => "unexpected end of input"
  | recursionLimit limit => s!"nesting depth exceeded the limit of {limit}"
  | io fault => s!"io error: {fault.message}"

structure EvalError where
  kind : ErrorKind
  /-- The word that failed. -/
  word : Option String := none
  /-- The user words and combinators that were running, innermost first. -/
  trace : List String := []
  deriving DecidableEq, Repr

namespace EvalError

/-- Names the word that failed; of nested words the innermost is kept. -/
def atWord (error : EvalError) (name : String) : EvalError :=
  { error with word := error.word.or (some name) }

/-- Notes that the error leaves a running word or combinator. -/
def inFrame (error : EvalError) (name : String) : EvalError :=
  { error with trace := error.trace ++ [name] }

/-- The failing word, unless the message about the cause has named it already. -/
def wordNote (error : EvalError) : String :=
  match error.kind, error.word with
  | .unknownWord _, _ | _, none => ""
  | _, some word => s!" in '{word}'"

def traceNote (error : EvalError) : String :=
  let frames := String.intercalate " <- " error.trace
  if error.trace.isEmpty then "" else s!" (called from {frames})"

def message (error : EvalError) : String :=
  error.kind.message ++ error.wordNote ++ error.traceNote

/-- The fault of a stream that lies behind the error. -/
def ioFault? (error : EvalError) : Option IoFault :=
  match error.kind with
  | .io fault => some fault
  | _ => none

end EvalError

end StackCalc
