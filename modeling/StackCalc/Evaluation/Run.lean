import StackCalc.Evaluation.Combinators
import StackCalc.Evaluation.Words
import StackCalc.Token.Nesting
import StackCalc.Token.Tokenize

/-!
The evaluator. Tokens run strictly from left to right; a user word runs its tokens on the same
stack.

The nesting of calls is bounded, and the bound is what makes every evaluation end: a call runs with
one level less than its caller. Within a level the tokens that are still to run become fewer, and a
word reference that is applied to another one leaves a smaller stack.
-/
namespace StackCalc.Eval

open Stack Token

/-- Does what a primitive stands for; bodies run through `call`. The result is the word to execute
next, which only `apply` ever names. -/
def invoke (call : Caller) : Primitive → Eval (Option String)
  | .add => only (binary (· + ·))
  | .subtract => only (binary (· - ·))
  | .multiply => only (binary (· * ·))
  | .divide => only (binaryNonzero (· / ·))
  | .remainder => only (binaryNonzero Arithmetic.remainder)
  | .power => only (binary Float.pow)
  | .logarithm => only (binary Arithmetic.logarithm)
  | .larger => only (binary Arithmetic.larger)
  | .smaller => only (binary Arithmetic.smaller)
  | .compare => only (binary Arithmetic.comparison)
  | .copy => only (onStack (copyFromTop 0))
  | .swap => only (onStack (rotate 2))
  | .drop => only (discard (onStack pop))
  | .copySecond => only (onStack (copyFromTop 1))
  | .rotate3 => only (onStack (rotate 3))
  | .define => only define
  | .addAlias => only addAlias
  | .map => only (map call Primitive.map.name)
  | .fold => only (fold call Primitive.fold.name)
  | .fold1 => only (fold1 call Primitive.fold1.name)
  | .filter => only (filter call Primitive.filter.name)
  | .iterate => only (iterate call Primitive.iterate.name)
  | .choose => only (choose call Primitive.choose.name)
  | .apply => apply call Primitive.apply.name
  | .length => only length
  | .sum => only sum
  | .draw => only draw
  | .readNumber => only readNumber
  | .print => only print

/-- A word that is to be executed next has been taken from the stack. -/
theorem height_lt_of_invoke {call : Caller} {operation : Primitive} {s t : Session}
    {next : String} (h : invoke call operation s = .ok (some next) t) :
    t.stack.height < s.stack.height := by
  cases operation
  case apply =>
    simp only [invoke, apply, onStack, bind, EStateM.bind] at h
    cases hp : pop s.stack with
    | error kind stack => simp [hp] at h
    | ok value stack =>
      have := height_lt_of_pop hp
      cases value with
      | reference name =>
        simp only [hp, pure, EStateM.pure] at h
        cases h
        exact this
      | quotation body =>
        simp only [hp] at h
        exact absurd h only_ne_some
      | number value => simp [hp, fail_apply] at h
      | sequence items => simp [hp, fail_apply] at h
  all_goals exact absurd h only_ne_some

/-- Looks a word up and executes it. -/
def execute (call : Caller) (name : String) : Eval Unit := fun s =>
  match s.dictionary.lookup? name with
  | none => .error { kind := .unknownWord name, word := some name } s
  | some (.user body) => call name body s
  | some (.primitive operation) =>
    match _h : invoke call operation s with
    | .error error t => nameWord name (.error error t)
    | .ok none t => .ok () t
    | .ok (some next) t => nameWord name (execute call next t)
termination_by s => s.stack.height
decreasing_by exact height_lt_of_invoke _h

/-- What a pair of brackets does with the tokens between them: braces push them as a quotation, and
square brackets run them in an array scope. -/
def enclosed (bracket : Bracket) (body : List Token) (runBody : Eval Unit) : Eval Unit :=
  match bracket with
  | .brace => push (.quotation body)
  | .square => arrayScope runBody

/-- Runs tokens in order; an opening bracket takes everything up to its partner. -/
def run (call : Caller) : List Token → Eval Unit
  | [] => pure ()
  | token :: rest => do
    match token.kind with
    | .number value =>
      push (.number value)
      run call rest
    | .quoted name =>
      push (.reference name)
      run call rest
    | .word name =>
      execute call name
      run call rest
    | .closer bracket => fail (.parse (.unexpectedCloser bracket token.position))
    | .opener bracket =>
      match _h : splitAtCloser 0 rest with
      | none => fail (.parse (.unclosed bracket token.position))
      | some (body, after) =>
        enclosed bracket body (run call body)
        run call after
termination_by tokens => tokens.length
decreasing_by
  all_goals try have := length_of_splitAtCloser _h
  all_goals simp only [List.length_cons]
  all_goals omega

/-- How bodies are called with `room` further levels of nesting. Without room the call fails, in the
name of the frame that it would have opened. -/
def callWithin : Nat → Caller
  | 0, frame, _ => fun s =>
    .error { kind := .recursionLimit s.settings.maxDepth, word := some frame } s
  | room + 1, frame, body => inFrame frame (run (callWithin room) body)

/-- Runs tokens at the present depth. -/
def evaluate (tokens : List Token) : Eval Unit := fun s =>
  run (callWithin s.room) tokens s

/-- A call is refused where the limit is reached, and else runs its body one level deeper. -/
theorem callWithin_room (frame : String) (body : List Token) (s : Session) :
    callWithin s.room frame body s =
      if s.settings.maxDepth ≤ s.depth then
        .error { kind := .recursionLimit s.settings.maxDepth, word := some frame } s
      else inFrame frame (evaluate body) s := by
  by_cases h : s.settings.maxDepth ≤ s.depth
  · rw [if_pos h, Session.room, Nat.sub_eq_zero_of_le h]
    rfl
  · rw [if_neg h, Session.room, show s.settings.maxDepth - s.depth =
      s.settings.maxDepth - (s.depth + 1) + 1 by omega]
    rfl

/-- Reads and runs a source text, from the outermost level. A text that is no program changes
nothing. -/
def load (source : String) : Eval Unit := do
  match tokenize source with
  | .error fault => fail (.parse fault)
  | .ok tokens =>
    modify fun s => { s with depth := 0 }
    evaluate tokens

/-- Runs a line, and returns the values that are then on the stack, the bottom first. -/
def evaluateLine (source : String) : Eval (List Value) := do
  load source
  return (← get).stack.fromBottom

end StackCalc.Eval
