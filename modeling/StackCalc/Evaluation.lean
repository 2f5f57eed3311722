import StackCalc.Session
import StackCalc.Stack.Operands

/-!
Evaluations: computations that change a session and may fail. A failure keeps the session as it was
at that moment.
-/
namespace StackCalc

abbrev Eval := EStateM EvalError Session

namespace Eval

/-- Fails without a word: the word that is running adds its name. -/
def fail {α : Type} (kind : ErrorKind) : Eval α :=
  throw { kind }

theorem fail_apply {α : Type} (kind : ErrorKind) (s : Session) :
    (fail kind : Eval α) s = .error { kind } s := rfl

/-- An operation on the current stack. -/
def onStack {α : Type} (op : Stack.Op α) : Eval α := fun s =>
  match op s.stack with
  | .ok a stack => .ok a { s with stack }
  | .error kind stack => .error { kind } { s with stack }

def push (value : Value) : Eval Unit :=
  onStack (Stack.push value)

/-- An error that does not name a word yet names this one. -/
def nameWord {α : Type} (name : String) :
    EStateM.Result EvalError Session α → EStateM.Result EvalError Session α
  | .ok a s => .ok a s
  | .error error s => .error (error.atWord name) s

/-- Runs `act` one level deeper, in the frame `name`. The level is left also when `act` fails, and
the error notes the frame. -/
def inFrame (name : String) (act : Eval Unit) : Eval Unit := fun s =>
  match act { s with depth := s.depth + 1 } with
  | .ok () t => .ok () { t with depth := t.depth - 1 }
  | .error error t => .error (error.inFrame name) { t with depth := t.depth - 1 }

/-- `act`, after which no word is left to execute. -/
def only (act : Eval Unit) : Eval (Option String) := do
  act
  return none

theorem only_ne_some {act : Eval Unit} {s t : Session} {next : String} :
    only act s ≠ .ok (some next) t := by
  intro h
  simp only [only, bind, EStateM.bind, pure, EStateM.pure] at h
  split at h <;> simp at h

/-- The session inside a new scope: an empty stack, and the current one set aside. -/
def scopeEntered (s : Session) : Session :=
  { s with stack := .empty, enclosing := s.stack :: s.enclosing }

/-- The session after a scope: the stack that was set aside is the current one again. -/
def scopeLeft (s : Session) : Session :=
  { s with stack := s.enclosing.head?.getD .empty, enclosing := s.enclosing.tail }

/-- Runs `body` on a fresh stack, while the current one is set aside, and pushes what it leaves as a
sequence. The stack set aside is restored also when `body` fails. -/
def arrayScope (body : Eval Unit) : Eval Unit := fun s =>
  match body (scopeEntered s) with
  | .ok () t => push (.sequence t.stack.fromBottom) (scopeLeft t)
  | .error error t => .error error (scopeLeft t)

end Eval

/-- How a body of tokens is called under the name of a frame. -/
abbrev Caller := String → List Token → Eval Unit

end StackCalc
