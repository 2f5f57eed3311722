/-!
Places in a source text, counted in characters: lines and columns start at one, and a line feed ends
its line.
-/
namespace StackCalc.Text

structure Position where
  line : Nat := 1
  column : Nat := 1
  deriving DecidableEq, Repr, Inhabited

namespace Position

/-- The place of the character that follows `c`. -/
def after (p : Position) (c : Char) : Position :=
  if c = '\n' then ⟨p.line + 1, 1⟩ else ⟨p.line, p.column + 1⟩

/-- The place of the character that follows all of `text`. -/
def afterAll (p : Position) (text : List Char) : Position :=
  text.foldl after p

theorem afterAll_append (p : Position) (s t : List Char) :
    p.afterAll (s ++ t) = (p.afterAll s).afterAll t :=
  List.foldl_append

def text (p : Position) : String :=
  s!"line {p.line}, column {p.column}"

end Position

end StackCalc.Text
