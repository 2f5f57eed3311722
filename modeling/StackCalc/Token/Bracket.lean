/-!
The two kinds of brackets. Braces enclose a quotation, which is kept unevaluated; square brackets
enclose an array scope, which is evaluated on a stack of its own.
-/
namespace StackCalc

inductive Bracket where
  | brace
  | square
  deriving DecidableEq, Repr

namespace Bracket

def opening : Bracket → Char
  | brace => '{'
  | square => '['

def closing : Bracket → Char
  | brace => '}'
  | square => ']'

end Bracket

/-- The four characters that are tokens by themselves. -/
def isBracket (c : Char) : Bool :=
  c = Bracket.brace.opening || c = Bracket.brace.closing ||
    c = Bracket.square.opening || c = Bracket.square.closing

end StackCalc
