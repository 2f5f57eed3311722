import StackCalc.Decimal.Literal
import StackCalc.Fault
import StackCalc.Text.WhiteSpace
import StackCalc.Token

/-!
From text to tokens. A lexeme is a bracket, or a longest run of characters that are neither white
space nor brackets nor the mark of a comment; each lexeme is one token.
-/
namespace StackCalc

open Text

namespace Token

/-- The characters that names and numbers are made of. -/
def isNameChar (c : Char) : Bool :=
  !(c = commentMark || isWhiteSpace c || isBracket c)

/-- A piece of text that makes one token. -/
structure Lexeme where
  first : Char
  rest : List Char
  position : Position
  deriving DecidableEq, Repr

def Lexeme.text (lexeme : Lexeme) : List Char :=
  lexeme.first :: lexeme.rest

/-- The lexemes of a text that starts at `position`, in order. -/
def lexemes (position : Position) : List Char → List Lexeme
  | [] => []
  | c :: rest =>
    if c = commentMark then
      lexemes ((position.after c).afterAll (rest.takeWhile (· != '\n')))
        (rest.dropWhile (· != '\n'))
    else if isWhiteSpace c then
      lexemes (position.after c) rest
    else if isBracket c then
      ⟨c, [], position⟩ :: lexemes (position.after c) rest
    else
      ⟨c, rest.takeWhile isNameChar, position⟩ ::
        lexemes ((position.after c).afterAll (rest.takeWhile isNameChar))
          (rest.dropWhile isNameChar)
termination_by text => text.length
decreasing_by all_goals grind [List.dropWhile_sublist, List.Sublist.length_le]

/-- The token that a bracket is. -/
def bracketKind? (c : Char) : Option Kind :=
  if c = Bracket.brace.opening then some (.opener .brace)
  else if c = Bracket.brace.closing then some (.closer .brace)
  else if c = Bracket.square.opening then some (.opener .square)
  else if c = Bracket.square.closing then some (.closer .square)
  else none

/-- A quote mark must have a name behind it; what reads as a decimal literal is a number, and
anything else but a bracket is a word. -/
def Lexeme.kind? (lexeme : Lexeme) : Except ParseFault Kind :=
  match bracketKind? lexeme.first with
  | some kind => .ok kind
  | none =>
    if lexeme.first = quoteMark then
      if lexeme.rest.isEmpty then .error (.loneQuoteMark lexeme.position)
      else .ok (.quoted (String.ofList lexeme.rest))
    else
      match Literal.read? lexeme.text with
      | some value => .ok (.number value)
      | none => .ok (.word (String.ofList lexeme.text))

def Lexeme.token? (lexeme : Lexeme) : Except ParseFault Token :=
  (lexeme.kind?).map (⟨·, lexeme.position⟩)

/-- The tokens of a text, whether or not their brackets match. -/
def scan (text : List Char) : Except ParseFault (List Token) :=
  (lexemes ⟨1, 1⟩ text).mapM Lexeme.token?

end Token

end StackCalc
