/-!
What a host can set before a session starts.
-/
namespace StackCalc

structure Settings where
  /-- Whether the standard word library is loaded when a session starts. -/
  loadPrelude : Bool := true
  /-- How deep calls of user words and combinator bodies may nest. -/
  maxDepth : Nat := 1000
  deriving DecidableEq, Repr

end StackCalc
