import Mathlib.Logic.Relation
import StackCalc.Proofs.BodyCalls

/-!
An evaluation from moment to moment. What is open at a moment stands in a list of frames, one for
each thing that waits for what is inside it, the innermost first; a step does one thing at the inner
end of the list. An error closes the frames one after the other.
-/
namespace StackCalc

open Eval

/-- What `map`, `fold`, `fold1` and `filter` have made of the items that their body has seen. -/
inductive Harvest where
  | mapped (results : List Value)
  | kept (items : List Value)
  | reduced (accumulator : Value)

namespace Harvest

/-- The session with the operands of the body on the stack. -/
def offer (item : Value) (s : Session) : Harvest → Session
  | mapped _ | kept _ => s.pushed item
  | reduced accumulator => (s.pushed accumulator).pushed item

/-- What the body makes of `item` is brought in. -/
def bringIn (item result : Value) : Harvest → Harvest
  | mapped results => mapped (results ++ [result])
  | kept items => if result.isTrue then kept (items ++ [item]) else kept items
  | reduced _ => reduced result

/-- What the combinator leaves. -/
def yield : Harvest → Value
  | mapped results => .sequence results
  | kept items => .sequence items
  | reduced accumulator => accumulator

end Harvest

/-- A loop of a body over items, which finds a stack of height `base` under its operands. -/
structure Gathering where
  frame : String
  body : List Token
  base : Nat
  harvest : Harvest
  items : List Value

/-- How a primitive goes on once it has its operands. -/
inductive Sequel where
  | finished
  | call (frame : String) (body : List Token)
  /-- The body is called so many times. -/
  | again (frame : String) (body : List Token) (count : Nat)
  | gather (loop : Gathering)
  /-- The word that an applied reference names is executed. -/
  | word (name : String)

/-- What is to be done at a moment. -/
inductive Task where
  | run (tokens : List Token)
  | execute (name : String)
  | proceed (sequel : Sequel)
  /-- The error leaves whatever is open. -/
  | raise (error : EvalError)

/-- What waits for the things inside it to be done. -/
inductive Frame where
  /-- The tokens that follow. -/
  | rest (tokens : List Token)
  /-- A user word or the body of a combinator, one level deeper than what is around it. -/
  | call (name : String)
  | scope
  /-- A primitive and the word it was invoked under. -/
  | primitive (name : String) (operation : Primitive)
  /-- The word that an applied reference named. -/
  | applied
  | again (frame : String) (body : List Token) (count : Nat)
  /-- The watch over a body that was offered `item`; the enclosing watch had the mark `outer`. -/
  | watch (outer : Nat) (item : Value) (loop : Gathering)

/-- A moment of an evaluation. -/
structure Moment where
  task : Task
  frames : List Frame
  session : Session

namespace Eval

/-- A caller for primitives that call nothing. -/
def noCall : Caller := fun _ _ => pure ()

/-- What a primitive does before anything else is entered. -/
def start : Primitive → Eval Sequel
  | .map => do
    let (items, body) ← onStack Stack.popSequenceBody
    return .gather ⟨Primitive.map.name, body, ← height, .mapped [], items⟩
  | .filter => do
    let (items, body) ← onStack Stack.popSequenceBody
    return .gather ⟨Primitive.filter.name, body, ← height, .kept [], items⟩
  | .fold => do
    let (items, first, body) ← onStack Stack.popSequenceStartBody
    return .gather ⟨Primitive.fold.name, body, ← height, .reduced first, items⟩
  | .fold1 => do
    let (items, body) ← onStack Stack.popSequenceBody
    match items with
    | [] => fail .emptySequence
    | first :: rest => return .gather ⟨Primitive.fold1.name, body, ← height, .reduced first, rest⟩
  | .iterate => do
    let (count, body) ← onStack do
      Stack.require 2
      let count ← Stack.popCount
      return (count, ← Stack.popQuotation)
    return .again Primitive.iterate.name body count
  | .choose => do
    let (condition, whenTrue, whenFalse) ← onStack do
      Stack.require 3
      let whenFalse ← Stack.pop
      let whenTrue ← Stack.pop
      return (← Stack.popNumber, whenTrue, whenFalse)
    match if condition != 0 then whenTrue else whenFalse with
    | .quotation body => return .call Primitive.choose.name body
    | value => do
      push value
      return .finished
  | .apply => do
    match ← onStack Stack.pop with
    | .quotation body => return .call Primitive.apply.name body
    | .reference name => return .word name
    | other => fail (.typeMismatch "quotation or word reference" other.typeName)
  | operation => do
    let _ ← invoke noCall operation
    return .finished

/-- What a combinator does with its body once the watch over it has seen the stack cut down to
`low`. -/
def accept (low base : Nat) : Eval Value := do
  let left ← height
  if low < base || left != base + 1 then fail (.arity 1 (left - min low base))
  else onStack Stack.pop

end Eval

namespace Frame

/-- What an error notes when it leaves the frame. -/
def note : Frame → EvalError → EvalError
  | call name, error => error.inFrame name
  | primitive name _, error => error.atWord name
  | _, error => error

/-- The session as it is outside the frame. -/
def leave (s : Session) : Frame → Session
  | call _ => { s with depth := s.depth - 1 }
  | scope => scopeLeft s
  | watch outer _ _ => watchLeft outer s
  | _ => s

end Frame

namespace Moment

/-- The moment after a computation: its result says what to do, and an error is raised. -/
def after {α : Type} (next : α → Task) (frames : List Frame) :
    EStateM.Result EvalError Session α → Moment
  | .ok a s => ⟨next a, frames, s⟩
  | .error error s => ⟨.raise error, frames, s⟩

/-- There is nothing left to do inside the frames. -/
def finished (frames : List Frame) (s : Session) : Moment :=
  ⟨.proceed .finished, frames, s⟩

/-- The next of the tokens that are to run. -/
def runStep (frames : List Frame) (s : Session) : List Token → Moment
  | [] => finished frames s
  | ⟨.number value, _⟩ :: rest => ⟨.run rest, frames, s.pushed (.number value)⟩
  | ⟨.quoted name, _⟩ :: rest => ⟨.run rest, frames, s.pushed (.reference name)⟩
  | ⟨.word name, _⟩ :: rest => ⟨.execute name, .rest rest :: frames, s⟩
  | ⟨.closer bracket, position⟩ :: _ =>
    ⟨.raise { kind := .parse (.unexpectedCloser bracket position) }, frames, s⟩
  | ⟨.opener bracket, position⟩ :: rest =>
    match Token.splitAtCloser 0 rest with
    | none => ⟨.raise { kind := .parse (.unclosed bracket position) }, frames, s⟩
    | some (body, after) =>
      match bracket with
      | .brace => ⟨.run after, frames, s.pushed (.quotation body)⟩
      | .square => ⟨.run body, .scope :: .rest after :: frames, scopeEntered s⟩

/-- The word is looked up: a primitive takes its operands, and a user word is called. -/
def executeStep (frames : List Frame) (s : Session) (name : String) : Moment :=
  match s.dictionary.lookup? name with
  | none => ⟨.raise { kind := .unknownWord name, word := some name }, frames, s⟩
  | some (.user body) => ⟨.proceed (.call name body), frames, s⟩
  | some (.primitive operation) =>
    after .proceed (.primitive name operation :: frames) (start operation s)

/-- A call is refused at the limit, and else its body runs one level deeper. -/
def callStep (frames : List Frame) (s : Session) (name : String) (body : List Token) : Moment :=
  if s.settings.maxDepth ≤ s.depth then
    ⟨.raise { kind := .recursionLimit s.settings.maxDepth, word := some name }, frames, s⟩
  else ⟨.run body, .call name :: frames, { s with depth := s.depth + 1 }⟩

/-- The loop offers its next item to the body, under a watch. -/
def gatherStep (frames : List Frame) (s : Session) (loop : Gathering) : Moment :=
  match loop.items with
  | [] => finished frames (s.pushed loop.harvest.yield)
  | item :: items =>
    ⟨.proceed (.call loop.frame loop.body), .watch s.stack.mark item { loop with items } :: frames,
      watchEntered (loop.harvest.offer item s)⟩

/-- Everything inside the frame has been done. -/
def resume (frames : List Frame) (s : Session) : Frame → Moment
  | .rest tokens => ⟨.run tokens, frames, s⟩
  | .scope => finished frames ((scopeLeft s).pushed (.sequence s.stack.fromBottom))
  | .again name body count => ⟨.proceed (.again name body count), frames, s⟩
  | .watch outer item loop =>
    after
      (fun result => .proceed (.gather { loop with harvest := loop.harvest.bringIn item result }))
      frames (accept s.stack.mark loop.base (watchLeft outer s))
  | frame => finished frames (frame.leave s)

/-- The next moment, if the evaluation has not ended. -/
def step : Moment → Option Moment
  | ⟨.run tokens, frames, s⟩ => some (runStep frames s tokens)
  | ⟨.execute name, frames, s⟩ => some (executeStep frames s name)
  | ⟨.proceed (.call name body), frames, s⟩ => some (callStep frames s name body)
  | ⟨.proceed (.again _ _ 0), frames, s⟩ => some (finished frames s)
  | ⟨.proceed (.again name body (count + 1)), frames, s⟩ =>
    some ⟨.proceed (.call name body), .again name body count :: frames, s⟩
  | ⟨.proceed (.gather loop), frames, s⟩ => some (gatherStep frames s loop)
  | ⟨.proceed (.word name), frames, s⟩ => some ⟨.execute name, .applied :: frames, s⟩
  | ⟨.proceed .finished, frame :: frames, s⟩ => some (resume frames s frame)
  | ⟨.raise error, frame :: frames, s⟩ => some ⟨.raise (frame.note error), frames, frame.leave s⟩
  | ⟨.proceed .finished, [], _⟩ | ⟨.raise _, [], _⟩ => none

end Moment

end StackCalc
