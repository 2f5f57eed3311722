import StackCalc.Decimal.Literal
import StackCalc.Evaluation
import StackCalc.Input
import StackCalc.Text.WhiteSpace

/-!
The primitives that run no other words. Stack effects are written `( before -- after )` with the top
on the right.
-/
namespace StackCalc.Eval

open Stack Text

/-- A function of two numbers: `( a b -- f(a, b) )`. -/
def binary (f : Float → Float → Float) : Eval Unit := do
  let (a, b) ← onStack popNumbers
  push (.number (f a b))

/-- A function of two numbers that is not defined for a second number of zero. -/
def binaryNonzero (f : Float → Float → Float) : Eval Unit := do
  let (a, b) ← onStack popNumbers
  if b == 0 then fail .divisionByZero else push (.number (f a b))

/-- Binds a name to the tokens of a quotation: `( ,name quotation -- )`. -/
def define : Eval Unit := do
  let (name, body) ← onStack do
    require 2
    let body ← popQuotation
    return (← popReference, body)
  modify fun s => { s with dictionary := s.dictionary.define name (.user body) }

/-- Binds a new name to the present meaning of another: `( ,new ,existing -- )`. -/
def addAlias : Eval Unit := do
  let (name, source) ← onStack do
    require 2
    let source ← popReference
    return (← popReference, source)
  match (← get).dictionary.addAlias name source with
  | .ok dictionary => modify fun s => { s with dictionary }
  | .error kind => fail kind

/-- The number of items: `( sequence -- n )`. -/
def length : Eval Unit := do
  let items ← onStack popSequence
  push (.number (Float.ofNat items.length))

/-- Adds up numbers from `total` on; fails at the first item that is none. -/
def total (total : Float) : List Value → Except ErrorKind Float
  | [] => .ok total
  | item :: rest =>
    match item.number? with
    | some value => Eval.total (total + value) rest
    | none => .error (.typeMismatch "number" item.typeName)

/-- The sum of a sequence of numbers: `( sequence -- n )`. -/
def sum : Eval Unit := do
  let items ← onStack popSequence
  match total 0 items with
  | .ok value => push (.number value)
  | .error kind => fail kind

/-- Moves the top of the stack that the innermost array scope has set aside to the current stack.
Outside array scopes it does nothing. -/
def draw : Eval Unit := fun s =>
  match s.enclosing with
  | [] => .ok () s
  | outer :: rest =>
    match pop outer with
    | .ok value outer => push value { s with enclosing := outer :: rest }
    | .error kind outer => .error { kind } { s with enclosing := outer :: rest }

/-- The number that a line of input holds, with white space around it or not. -/
def lineNumber? (line : List UInt8) : Except ErrorKind Float :=
  match String.fromUTF8? ⟨line.toArray⟩ with
  | none => .error (.io .invalidUtf8)
  | some text =>
    let word := trim text.toList
    match Literal.read? word with
    | some value => .ok value
    | none => .error (.parse (.notANumber (String.ofList word)))

/-- Takes a line from the input, whatever it holds, and pushes its number: `( -- n )`. -/
def readNumber : Eval Unit := do
  let input := (← get).input
  if input.isEmpty then fail .endOfInput
  else
    let (line, rest) := Input.splitLine input
    modify fun s => { s with input := rest }
    match lineNumber? line with
    | .ok value => push (.number value)
    | .error kind => fail kind

/-- Writes a value on a line of its own: `( value -- )`. -/
def print : Eval Unit := do
  let value ← onStack pop
  fun s =>
    match Output.writeLine value.render s.output with
    | .ok () output => .ok () { s with output }
    | .error fault output => .error { kind := .io fault } { s with output }

end StackCalc.Eval
