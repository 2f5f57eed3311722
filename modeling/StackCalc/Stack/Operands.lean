import StackCalc.Arithmetic
import StackCalc.Stack

/-!
Operands taken from the stack by kind. An operand of another kind is taken off before the failure
is reported; too few operands are reported before any is taken.
-/
namespace StackCalc.Stack

def mismatch {α : Type} (expected : String) (found : Value) : Op α :=
  throw (.typeMismatch expected found.typeName)

def popNumber : Op Float := do
  match ← pop with
  | .number value => return value
  | other => mismatch "number" other

def popSequence : Op (List Value) := do
  match ← pop with
  | .sequence items => return items
  | other => mismatch "sequence" other

def popQuotation : Op (List Token) := do
  match ← pop with
  | .quotation body => return body
  | other => mismatch "quotation" other

def popReference : Op String := do
  match ← pop with
  | .reference name => return name
  | other => mismatch "word reference" other

/-- The two topmost values, the top second. -/
def popTwo : Op (Value × Value) := do
  require 2
  let second ← pop
  let first ← pop
  return (first, second)

/-- The two topmost values as numbers, the top second. -/
def popNumbers : Op (Float × Float) := do
  require 2
  let second ← popNumber
  let first ← popNumber
  return (first, second)

/-- A number of repetitions. -/
def popCount : Op Nat := do
  match Arithmetic.count? (← popNumber) with
  | some count => return count
  | none => throw (.typeMismatch "non-negative integer" "number")

/-- A sequence, and the body to run on its items. -/
def popSequenceBody : Op (List Value × List Token) := do
  require 2
  let body ← popQuotation
  return (← popSequence, body)

/-- A sequence, a value to start from, and the body to run on the items. -/
def popSequenceStartBody : Op (List Value × Value × List Token) := do
  require 3
  let body ← popQuotation
  let start ← pop
  return (← popSequence, start, body)

end StackCalc.Stack
