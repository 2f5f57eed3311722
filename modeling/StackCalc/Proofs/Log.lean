import StackCalc.Proofs.Outcome

/-!
Which primitives an evaluation invokes. The log of a computation is indexed by the computation, and
it follows it step by step: what comes after a step is logged from the session that the step leaves,
and nothing comes after a failure. Bodies are logged wherever they run, in whatever word, combinator
or array scope.
-/
namespace StackCalc

open Eval

/-- A primitive that was invoked, and the session that it found. -/
structure Invocation where
  operation : Primitive
  session : Session

/-- For each session at which `act` may start, the primitives that it invokes, in order. -/
def Log {α : Type} (_act : Eval α) : Type :=
  Session → List Invocation

/-- Logs of all calls. -/
abbrev CallLog (call : Caller) : Type :=
  ∀ frame body, Log (call frame body)

namespace Log

section Sequence
variable {α β ι : Type} {x : Eval α} {f : α → Eval β}

/-- The log of a computation that invokes no primitive. -/
def silent : Log x := fun _ => []

/-- What `next` logs from the session that a successful result leaves. -/
def onward (next : ∀ a, Log (f a)) : EStateM.Result EvalError Session α → List Invocation
  | .ok a t => next a t
  | .error _ _ => []

def bind (log : Log x) (next : ∀ a, Log (f a)) : Log (x >>= f) := fun s =>
  log s ++ onward next (x s)

/-- The log of a primitive: first itself, then the bodies it runs. -/
def note (operation : Primitive) (log : Log x) : Log x := fun s =>
  ⟨operation, s⟩ :: log s

def mapM {g : ι → Eval β} (log : ∀ item, Log (g item)) : (items : List ι) → Log (items.mapM g)
  | [] => silent
  | item :: rest => bind (log item) fun b =>
    bind (mapM log rest) fun bs => silent (x := pure (b :: bs))

def foldlM {g : β → ι → Eval β} (log : ∀ b item, Log (g b item)) :
    (items : List ι) → (b : β) → Log (items.foldlM g b)
  | [], _ => silent
  | item :: rest, b => bind (log b item) fun b' => foldlM log rest b'

def times {act : Eval Unit} (log : Log act) : (count : Nat) → Log (Eval.times act count)
  | 0 => silent
  | count + 1 => bind log fun _ => times log count

def only {act : Eval Unit} (log : Log act) : Log (Eval.only act) :=
  bind log fun _ => silent

end Sequence

section Scopes
variable {act : Eval Unit} (log : Log act)

def watching : Log (Eval.watching act) := fun s =>
  log (watchEntered s)

def inFrame (name : String) : Log (Eval.inFrame name act) := fun s =>
  log { s with depth := s.depth + 1 }

def arrayScope : Log (Eval.arrayScope act) := fun s =>
  log (scopeEntered s)

end Scopes

section Combinators
variable {call : Caller} (log : CallLog call) (frame : String)

def singleResult (body : List Token) (base : Nat) : Log (Eval.singleResult call frame body base) :=
  bind (watching (log frame body)) fun _ => silent

def mapStep (body : List Token) (base : Nat) (item : Value) :
    Log (Eval.mapStep call frame body base item) :=
  bind silent fun _ => singleResult log frame body base

def map : Log (Eval.map call frame) :=
  note .map (bind silent fun (_, body) => bind silent fun base =>
    bind (mapM (mapStep log frame body base) _) fun _ => silent)

def reduceStep (body : List Token) (base : Nat) (accumulator item : Value) :
    Log (Eval.reduceStep call frame body base accumulator item) :=
  bind silent fun _ => bind silent fun _ => singleResult log frame body base

def reduce (body : List Token) (first : Value) (items : List Value) :
    Log (Eval.reduce call frame body first items) :=
  bind silent fun base => foldlM (reduceStep log frame body base) items first

def fold : Log (Eval.fold call frame) :=
  note .fold (bind silent fun (items, start, body) =>
    bind (reduce log frame body start items) fun _ => silent)

def fold1 : Log (Eval.fold1 call frame) :=
  note .fold1 (bind silent fun
    | ([], _) => silent
    | (first :: rest, body) => bind (reduce log frame body first rest) fun _ => silent)

def filterStep (body : List Token) (base : Nat) (item : Value) :
    Log (Eval.filterStep call frame body base item) :=
  bind silent fun _ => bind (singleResult log frame body base) fun _ => silent

def filter : Log (Eval.filter call frame) :=
  note .filter (bind silent fun (_, body) => bind silent fun base =>
    bind (mapM (filterStep log frame body base) _) fun _ => silent)

def iterate : Log (Eval.iterate call frame) :=
  note .iterate (bind silent fun (count, body) => times (log frame body) count)

/-- A value that is a quotation runs, and any other is pushed. -/
def branch : (value : Value) → Log (match value with
    | .quotation body => call frame body
    | value => push value)
  | .quotation body => log frame body
  | _ => silent

def choose : Log (Eval.choose call frame) :=
  note .choose (bind silent fun (condition, whenTrue, whenFalse) =>
    branch log frame (if condition != 0 then whenTrue else whenFalse))

def apply : Log (Eval.apply call frame) :=
  note .apply (bind silent fun
    | .quotation body => only (log frame body)
    | _ => silent)

end Combinators

section Evaluator
variable {call : Caller} (log : CallLog call)

def invoke : (operation : Primitive) → Log (Eval.invoke call operation)
  | .map => only (map log _)
  | .fold => only (fold log _)
  | .fold1 => only (fold1 log _)
  | .filter => only (filter log _)
  | .iterate => only (iterate log _)
  | .choose => only (choose log _)
  | .apply => apply log _
  | operation => note operation silent

/-- What executing the word `name` logs, and after it the words that references name in turn. -/
def executeFrom (name : String) (s : Session) : List Invocation :=
  match s.dictionary.lookup? name with
  | none => []
  | some (.user body) => log name body s
  | some (.primitive operation) =>
    invoke log operation s ++
      match _h : Eval.invoke call operation s with
      | .ok (some next) t => executeFrom next t
      | _ => []
termination_by s.stack.height
decreasing_by exact height_lt_of_invoke _h

def execute (name : String) : Log (Eval.execute call name) :=
  executeFrom log name

def enclosed (bracket : Bracket) (body : List Token) {runBody : Eval Unit} (log : Log runBody) :
    Log (Eval.enclosed bracket body runBody) :=
  match bracket with
  | .brace => silent
  | .square => arrayScope log

def run (tokens : List Token) : Log (Eval.run call tokens) :=
  match tokens with
  | [] => silent
  | ⟨.number value, _⟩ :: rest => bind (silent (x := push (.number value))) fun _ => run rest
  | ⟨.quoted name, _⟩ :: rest => bind (silent (x := push (.reference name))) fun _ => run rest
  | ⟨.word name, _⟩ :: rest => bind (execute log name) fun _ => run rest
  | ⟨.closer _, _⟩ :: _ => silent
  | ⟨.opener bracket, _⟩ :: rest =>
    match _h : Token.splitAtCloser 0 rest with
    | none => silent
    | some (body, after) => bind (enclosed bracket body (run body)) fun _ => run after
termination_by tokens.length
decreasing_by
  all_goals try have := Token.length_of_splitAtCloser _h
  all_goals simp only [List.length_cons]
  all_goals omega

section Equations
variable {name : String} {s t : Session} {rest body after : List Token}

theorem executeFrom_unknown (h : s.dictionary.lookup? name = none) :
    executeFrom log name s = [] := by
  rw [executeFrom]
  split <;> simp_all

theorem executeFrom_user (h : s.dictionary.lookup? name = some (.user body)) :
    executeFrom log name s = log name body s := by
  rw [executeFrom]
  split <;> simp_all

theorem executeFrom_next {operation : Primitive} {next : String}
    (h : s.dictionary.lookup? name = some (.primitive operation))
    (hi : Eval.invoke call operation s = .ok (some next) t) :
    executeFrom log name s = invoke log operation s ++ executeFrom log next t := by
  rw [executeFrom]
  split <;> try simp_all
  split <;> simp_all

theorem executeFrom_last {operation : Primitive}
    (h : s.dictionary.lookup? name = some (.primitive operation))
    (hi : ∀ next t, Eval.invoke call operation s ≠ .ok (some next) t) :
    executeFrom log name s = invoke log operation s := by
  rw [executeFrom]
  split <;> simp_all

theorem run_unclosed (bracket : Bracket) (position : Text.Position)
    (h : Token.splitAtCloser 0 rest = none) :
    run log (⟨.opener bracket, position⟩ :: rest) = silent := by
  rw [run]
  split <;> simp_all

theorem run_opener (bracket : Bracket) (position : Text.Position)
    (h : Token.splitAtCloser 0 rest = some (body, after)) :
    run log (⟨.opener bracket, position⟩ :: rest) =
      bind (enclosed bracket body (run log body)) fun _ => run log after := by
  rw [run]
  split
  next hs => simp_all
  next hs =>
    cases hs.symm.trans h
    rfl

end Equations

end Evaluator

/-- A call that the limit refuses invokes nothing. -/
def callWithin : (room : Nat) → CallLog (Eval.callWithin room)
  | 0, _, _ => silent
  | room + 1, frame, body => inFrame (run (callWithin room) body) frame

def evaluate (tokens : List Token) : Log (Eval.evaluate tokens) := fun s =>
  run (callWithin s.room) tokens s

end Log

end StackCalc
