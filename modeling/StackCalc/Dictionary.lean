import StackCalc.EvalError
import StackCalc.Primitive
import StackCalc.Token
import Std.Data.TreeMap.Lemmas

/-!
The words that are bound, and what they mean. A name is bound to a meaning and not to another name:
an alias takes over the meaning that its source has at that moment, and keeps it when the source is
bound anew. For listings the dictionary also remembers which aliases still share the meaning of
their source.
-/
namespace StackCalc

/-- What a word stands for. -/
inductive Definition where
  | primitive (operation : Primitive)
  /-- The tokens that a program gave for the word. -/
  | user (body : List Token)
  deriving DecidableEq

/-- A name that was made from another one. -/
structure AliasLink where
  name : String
  source : String
  deriving DecidableEq, Repr

structure Dictionary where
  definitions : Std.TreeMap String Definition := ∅
  /-- In the order in which the aliases were made. -/
  links : List AliasLink := []

namespace Dictionary

def empty : Dictionary := {}

def lookup? (d : Dictionary) (name : String) : Option Definition :=
  d.definitions[name]?

def contains (d : Dictionary) (name : String) : Bool :=
  d.definitions.contains name

def size (d : Dictionary) : Nat :=
  d.definitions.size

def isEmpty (d : Dictionary) : Bool :=
  d.definitions.isEmpty

/-- The links that a new meaning of `name` leaves in place: those that do not mention it. -/
def linksWithout (d : Dictionary) (name : String) : List AliasLink :=
  d.links.filter fun link => link.name ≠ name && link.source ≠ name

/-- Binds a name anew. -/
def define (d : Dictionary) (name : String) (definition : Definition) : Dictionary where
  definitions := d.definitions.insert name definition
  links := d.linksWithout name

/-- Binds a name to the present meaning of another one. An alias of itself changes nothing. -/
def addAlias (d : Dictionary) (name source : String) : Except ErrorKind Dictionary :=
  match d.lookup? source with
  | none => .error (.unknownWord source)
  | some definition =>
    if name = source then .ok d
    else
      .ok { definitions := d.definitions.insert name definition
            links := d.linksWithout name ++ [⟨name, source⟩] }

theorem lookup?_define (d : Dictionary) (name : String) (definition : Definition)
    (word : String) :
    (d.define name definition).lookup? word =
      if name = word then some definition else d.lookup? word := by
  simp [lookup?, define, Std.TreeMap.getElem?_insert]

/-- The new name means what the source meant; all other words keep their meaning. -/
theorem lookup?_addAlias {d e : Dictionary} {name source : String}
    (h : d.addAlias name source = .ok e) (word : String) :
    e.lookup? word = if name = word then d.lookup? source else d.lookup? word := by
  unfold addAlias at h
  split at h
  next => cases h
  next definition hs =>
    split at h
    next hn => cases h; grind
    next hn => cases h; simp [lookup?, Std.TreeMap.getElem?_insert] at hs ⊢; grind

/-- The names made from `source` that still share its meaning, the oldest first. -/
def aliasesOf (d : Dictionary) (source : String) : List String :=
  (d.links.filter (·.source = source)).map (·.name)

/-- All bound names in the order of their characters, each with its aliases. -/
def words (d : Dictionary) : List (String × List String) :=
  d.definitions.keys.map fun name => (name, d.aliasesOf name)

/-- The dictionary that binds each primitive to its own name. -/
def primitives : Dictionary where
  definitions := Primitive.all.foldl
    (fun bound operation => bound.insert operation.name (.primitive operation)) ∅

end Dictionary

end StackCalc
