import StackCalc.Primitive
import StackCalc.Token

/-!
Facts about the language for editors that colour or complete its source texts.
-/
namespace StackCalc.Highlighting

/-- The words that an editor marks as built in. -/
def builtinNames : List String :=
  ["add", "alias", "sub", "mul", "div", "mod", "swap", "dup", "print", "stdin", "map", "fold",
    "repeat", "pop", "def", "roll3", "len", "sum"]

/-- Starts a comment that runs to the end of the line. -/
def commentPrefix : String := String.singleton Token.commentMark

/-- Stands before a name that is not to be executed. -/
def quoteMarker : String := String.singleton Token.quoteMark

/-- The two delimiters that a kind of bracket writes. -/
def delimiters (bracket : Bracket) : String × String :=
  (String.singleton bracket.opening, String.singleton bracket.closing)

theorem isSome_ofName?_of_mem_builtinNames :
    ∀ name ∈ builtinNames, (Primitive.ofName? name).isSome := by decide

end StackCalc.Highlighting
