import StackCalc.EvalError
import StackCalc.Value

/-!
The stack of values. It changes at its top only, and it keeps a mark: the least height to which it
has been cut down or rearranged since the mark was set. Every value below the mark has stayed where
it was, which is how a combinator tells whether a body kept to its own operands. A copy of a value
leaves the mark alone.
-/
namespace StackCalc

structure Stack where
  /-- The top comes first. -/
  values : List Value
  /-- The number of values. -/
  height : Nat
  mark : Nat
  height_eq : height = values.length

namespace Stack

/-- A stack without values. -/
def empty : Stack := ⟨[], 0, 0, rfl⟩

instance : Inhabited Stack := ⟨empty⟩

@[ext] theorem ext {s t : Stack} (hv : s.values = t.values) (hm : s.mark = t.mark) : s = t := by
  have hh : s.height = t.height := by rw [s.height_eq, t.height_eq, hv]
  cases s
  cases t
  simp_all

/-- An operation on a stack that may fail; a failure keeps what was done before it. -/
abbrev Op := EStateM ErrorKind Stack

/-- A stack with the given values, the bottom first. -/
def ofBottom (values : List Value) : Stack where
  values := values.reverse
  height := values.length
  mark := 0
  height_eq := by simp

/-- The values, the bottom first. -/
def fromBottom (s : Stack) : List Value :=
  s.values.reverse

@[simp] theorem fromBottom_ofBottom (values : List Value) :
    (ofBottom values).fromBottom = values := by
  simp [ofBottom, fromBottom]

def top? (s : Stack) : Option Value :=
  s.values.head?

def isEmpty (s : Stack) : Bool :=
  s.values.isEmpty

/-- Equality of the values as programs see it. -/
def same (s t : Stack) : Bool :=
  Value.sameList s.values t.values

def pushed (s : Stack) (value : Value) : Stack where
  values := value :: s.values
  height := s.height + 1
  mark := s.mark
  height_eq := by simp [s.height_eq]

@[simp] theorem fromBottom_pushed (s : Stack) (value : Value) :
    (s.pushed value).fromBottom = s.fromBottom ++ [value] := by
  simp [pushed, fromBottom]

def push (value : Value) : Op Unit := fun s =>
  .ok () (s.pushed value)

/-- Fails unless there are `needed` values. -/
def require (needed : Nat) : Op Unit := fun s =>
  if s.height < needed then .error (.stackUnderflow needed s.height) s else .ok () s

def pop : Op Value := fun s =>
  match h : s.values with
  | [] => .error (.stackUnderflow 1 s.height) s
  | value :: rest =>
    .ok value
      { values := rest, height := s.height - 1, mark := min s.mark (s.height - 1)
        height_eq := by simp [s.height_eq, h] }

/-- Taking a value off again leaves a mark that is not above the height as it was. -/
theorem pop_pushed (s : Stack) (value : Value) :
    pop (s.pushed value) = .ok value { s with mark := min s.mark s.height } := rfl

/-- Pushes a copy of the value that lies `places` below the top. -/
def copyFromTop (places : Nat) : Op Unit := do
  require (places + 1)
  match (← get).values[places]? with
  | some value => push value
  | none => pure ()

/-- Brings the value at index `places`, if there is one, to the front. -/
def bringToFront (places : Nat) (values : List Value) : List Value :=
  match values[places]? with
  | some value => value :: values.eraseIdx places
  | none => values

theorem length_bringToFront (places : Nat) (values : List Value) :
    (bringToFront places values).length = values.length := by
  unfold bringToFront
  split
  next h =>
    have := (List.getElem?_eq_some_iff.1 h).1
    simp [List.length_eraseIdx, this]
    omega
  next => rfl

/-- Moves the lowest of the top `count` values to the top, the others down by one place. -/
def rotate (count : Nat) : Op Unit := fun s =>
  if s.height < count then .error (.stackUnderflow count s.height) s
  else
    .ok ()
      { values := bringToFront (count - 1) s.values, height := s.height
        mark := min s.mark (s.height - count)
        height_eq := by simp [length_bringToFront, s.height_eq] }

/-- Takes all values away, and sets the mark to the bottom. -/
def cleared (_ : Stack) : Stack := empty

/-- Starts a watch: sets the mark to the present height. -/
def watched (s : Stack) : Stack :=
  { s with mark := s.height }

/-- Ends a watch: the enclosing watch, whose mark was `outer`, has seen what this one saw. -/
def unwatched (outer : Nat) (s : Stack) : Stack :=
  { s with mark := min outer s.mark }

/-- The stack after a successful removal is smaller, so removals end. -/
theorem height_lt_of_pop {s t : Stack} {value : Value} (h : pop s = .ok value t) :
    t.height < s.height := by
  unfold pop at h
  split at h
  · cases h
  next rest hs =>
    cases h
    have := s.height_eq
    simp_all

end Stack

end StackCalc
