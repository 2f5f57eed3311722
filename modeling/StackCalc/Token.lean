import StackCalc.Decimal.Notation
import StackCalc.Text.Position
import StackCalc.Token.Bracket

/-!
Tokens of the language: a program is a flat list of them, quotations included.
-/
namespace StackCalc

open Text

/-- What a token is, wherever it stands. -/
inductive Token.Kind where
  /-- A number that is pushed. -/
  | number (value : Float)
  /-- A name behind a quote mark: pushed as a word reference, never executed. -/
  | quoted (name : String)
  /-- A name to look up and execute. -/
  | word (name : String)
  | opener (bracket : Bracket)
  | closer (bracket : Bracket)
  deriving DecidableEq

/-- A token and the place of its first character, which only diagnostics mention. -/
structure Token where
  kind : Token.Kind
  position : Position
  deriving DecidableEq

namespace Token

/-- The mark that turns a name into a word reference. -/
def quoteMark : Char := ','

/-- Starts a comment, which runs to the end of the line. -/
def commentMark : Char := '#'

/-- The token as it is written in a source text. -/
def Kind.text : Kind → List Char
  | number value => numberText value
  | quoted name => quoteMark :: name.toList
  | word name => name.toList
  | opener bracket => [bracket.opening]
  | closer bracket => [bracket.closing]

def text (token : Token) : List Char :=
  token.kind.text

/-- Equality as programs see it: numbers compare by value, so a number that is not a number differs
from itself and the two zeros are one. -/
def Kind.same : Kind → Kind → Bool
  | number x, number y => x == y
  | quoted x, quoted y => x = y
  | word x, word y => x = y
  | opener x, opener y => x = y
  | closer x, closer y => x = y
  | _, _ => false

/-- Positions do not count. -/
def same (s t : Token) : Bool :=
  s.kind.same t.kind

/-- The two lists have the same length and the same tokens in order, wherever they stand. -/
def sameList : List Token → List Token → Bool
  | [], [] => true
  | s :: ss, t :: ts => s.same t && sameList ss ts
  | _, _ => false

end Token

end StackCalc
