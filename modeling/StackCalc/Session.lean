import StackCalc.Dictionary
import StackCalc.Output
import StackCalc.Settings
import StackCalc.Stack

/-!
A session: everything that one line of a program leaves for the next. During an evaluation it is
also the state that the running words change.
-/
namespace StackCalc

structure Session where
  settings : Settings := {}
  dictionary : Dictionary := .primitives
  stack : Stack := .empty
  /-- The stacks that open array scopes have set aside, the innermost scope first. -/
  enclosing : List Stack := []
  /-- The number of calls of user words and combinator bodies that are open. -/
  depth : Nat := 0
  /-- The bytes that programs have not read yet. -/
  input : List UInt8 := []
  output : Output := {}

namespace Session

instance : Inhabited Session := ⟨{}⟩

/-- A session with the primitives alone: no word library, no input, and no use for output. -/
def bare : Session where
  settings := { loadPrelude := false }
  output := { discards := true }

/-- The further levels of nesting that the limit allows. -/
def room (s : Session) : Nat :=
  s.settings.maxDepth - s.depth

/-- Empties the stack. -/
def clearStack (s : Session) : Session :=
  { s with stack := s.stack.cleared }

end Session

end StackCalc
