/-!
The operations that the language has of itself, and the words they are bound to when a session
starts.
-/
namespace StackCalc

inductive Primitive where
  | add | subtract | multiply | divide | remainder | power | logarithm | larger | smaller | compare
  | copy | swap | drop | copySecond | rotate3
  | define | addAlias
  | map | fold | fold1 | filter | iterate | choose | apply
  | length | sum | draw
  | readNumber | print
  deriving DecidableEq, Repr

namespace Primitive

/-- All primitives: arithmetic, the stack, words, combinators, sequences, input and output. -/
def all : List Primitive :=
  [add, subtract, multiply, divide, remainder, power, logarithm, larger, smaller, compare,
    copy, swap, drop, copySecond, rotate3,
    define, addAlias,
    map, fold, fold1, filter, iterate, choose, apply,
    length, sum, draw,
    readNumber, print]

/-- The word that names the primitive. -/
def name : Primitive → String
  | add => "add"
  | subtract => "sub"
  | multiply => "mul"
  | divide => "div"
  | remainder => "mod"
  | power => "pow"
  | logarithm => "log"
  | larger => "max"
  | smaller => "min"
  | compare => "cmp"
  | copy => "dup"
  | swap => "swap"
  | drop => "pop"
  | copySecond => "over"
  | rotate3 => "roll3"
  | define => "def"
  | addAlias => "alias"
  | map => "map"
  | fold => "fold"
  | fold1 => "fold1"
  | filter => "filter"
  | iterate => "repeat"
  | choose => "if"
  | apply => "apply"
  | length => "len"
  | sum => "sum"
  | draw => "arg"
  | readNumber => "stdin"
  | print => "print"

def ofName? (word : String) : Option Primitive :=
  all.find? fun primitive => primitive.name = word

theorem mem_all (primitive : Primitive) : primitive ∈ all := by
  cases primitive <;> decide

theorem ofName?_name (primitive : Primitive) : ofName? primitive.name = some primitive := by
  cases primitive <;> decide

theorem name_injective {p q : Primitive} (h : p.name = q.name) : p = q :=
  Option.some.inj (by rw [← ofName?_name p, h, ofName?_name q])

end Primitive

end StackCalc
