import StackCalc.Token.Nesting
import StackCalc.Token.Scan

/-!
The tokens of a source text. A fault within a token is reported before any fault of the brackets.
-/
namespace StackCalc

/-- The tokens of a source text, in order, if its brackets match. -/
def tokenize (source : String) : Except ParseFault (List Token) := do
  let tokens ← Token.scan source.toList
  Token.checkNesting tokens
  return tokens

end StackCalc
