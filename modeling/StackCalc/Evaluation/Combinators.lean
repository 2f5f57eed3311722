import StackCalc.Evaluation

/-!
Combinators: primitives that take quotations and decide how they run. A body runs on the current
stack, so it can read the values below its operands. The bodies of `map`, `fold`, `fold1` and
`filter` must put one value in place of their operands and leave everything below untouched.
-/
namespace StackCalc.Eval

open Stack

/-- The height of the current stack. -/
def height : Eval Nat :=
  return (← get).stack.height

/-- The session under a watch that starts now. -/
def watchEntered (s : Session) : Session :=
  { s with stack := s.stack.watched }

/-- The session after a watch, and under the enclosing one, whose mark was `outer`. -/
def watchLeft (outer : Nat) (s : Session) : Session :=
  { s with stack := s.stack.unwatched outer }

/-- Runs `act` under a watch, and returns the least height to which it cut the current stack down or
rearranged it. A watch that is already on learns of it too, also when `act` fails. -/
def watching (act : Eval Unit) : Eval Nat := fun s =>
  match act (watchEntered s) with
  | .ok () t => .ok t.stack.mark (watchLeft s.stack.mark t)
  | .error error t => .error error (watchLeft s.stack.mark t)

/-- Calls `body`, whose operands lie on a stack of height `base`, and takes the one value that it
leaves for them. It is an error if the body took or moved a value below `base`, or left another
number of values. -/
def singleResult (call : Caller) (frame : String) (body : List Token) (base : Nat) :
    Eval Value := do
  let low ← watching (call frame body)
  let left ← height
  if low < base || left != base + 1 then fail (.arity 1 (left - min low base))
  else onStack pop

/-- What `map` makes of an item. -/
def mapStep (call : Caller) (frame : String) (body : List Token) (base : Nat) (item : Value) :
    Eval Value := do
  push item
  singleResult call frame body base

/-- Replaces each item by what the body makes of it: `( sequence quotation -- sequence )`. -/
def map (call : Caller) (frame : String) : Eval Unit := do
  let (items, body) ← onStack popSequenceBody
  let base ← height
  let results ← items.mapM (mapStep call frame body base)
  push (.sequence results)

/-- Combines an accumulator with an item, which lies on top. -/
def reduceStep (call : Caller) (frame : String) (body : List Token) (base : Nat)
    (accumulator item : Value) : Eval Value := do
  push accumulator
  push item
  singleResult call frame body base

/-- Combines an accumulator with each item in turn. -/
def reduce (call : Caller) (frame : String) (body : List Token) (first : Value)
    (items : List Value) : Eval Value := do
  let base ← height
  items.foldlM (reduceStep call frame body base) first

/-- Reduces from a given start: `( sequence start quotation -- value )`. -/
def fold (call : Caller) (frame : String) : Eval Unit := do
  let (items, start, body) ← onStack popSequenceStartBody
  push (← reduce call frame body start items)

/-- Reduces from the first item: `( sequence quotation -- value )`. -/
def fold1 (call : Caller) (frame : String) : Eval Unit := do
  let (items, body) ← onStack popSequenceBody
  match items with
  | [] => fail .emptySequence
  | first :: rest => push (← reduce call frame body first rest)

/-- An item, and whether `filter` keeps it. -/
def filterStep (call : Caller) (frame : String) (body : List Token) (base : Nat) (item : Value) :
    Eval (Value × Bool) := do
  push item
  return (item, (← singleResult call frame body base).isTrue)

/-- Keeps the items for which the body leaves a true value: `( sequence quotation -- sequence )`. -/
def filter (call : Caller) (frame : String) : Eval Unit := do
  let (items, body) ← onStack popSequenceBody
  let base ← height
  let verdicts ← items.mapM (filterStep call frame body base)
  push (.sequence ((verdicts.filter (·.2)).map (·.1)))

/-- Does `act` `count` times. -/
def times (act : Eval Unit) : Nat → Eval Unit
  | 0 => pure ()
  | count + 1 => do
    act
    times act count

/-- Calls the body a number of times: `( quotation n -- )`. -/
def iterate (call : Caller) (frame : String) : Eval Unit := do
  let (count, body) ← onStack do
    require 2
    let count ← popCount
    return (count, ← popQuotation)
  times (call frame body) count

/-- Runs the first of two branches if the condition is not zero, else the second:
`( condition then else -- )`. A branch that is no quotation is pushed as it is. -/
def choose (call : Caller) (frame : String) : Eval Unit := do
  let (condition, whenTrue, whenFalse) ← onStack do
    require 3
    let whenFalse ← pop
    let whenTrue ← pop
    return (← popNumber, whenTrue, whenFalse)
  match if condition != 0 then whenTrue else whenFalse with
  | .quotation body => call frame body
  | value => push value

/-- Calls a quotation; of a word reference it takes the name, which is the word to execute next:
`( quotation|,word -- ... )`. -/
def apply (call : Caller) (frame : String) : Eval (Option String) := do
  match ← onStack pop with
  | .quotation body => only (call frame body)
  | .reference name => return some name
  | other => fail (.typeMismatch "quotation or word reference" other.typeName)

end StackCalc.Eval
