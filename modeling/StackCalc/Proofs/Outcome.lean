import StackCalc.Evaluation.Run

/-!
How computations open: the result of a sequence of steps, operations on the stack taken apart, and
one equation for each way in which the evaluator goes on.
-/
namespace StackCalc

/-- The state that a computation leaves, whether it succeeds or fails. -/
def finalState {ε σ α : Type} : EStateM.Result ε σ α → σ
  | .ok _ s => s
  | .error _ s => s

/-- The error of a computation that fails. -/
def failure? {ε σ α : Type} : EStateM.Result ε σ α → Option ε
  | .ok _ _ => none
  | .error error _ => some error

theorem failure?_eq_some {ε σ α : Type} {r : EStateM.Result ε σ α} {error : ε} :
    failure? r = some error ↔ ∃ t, r = .error error t := by
  cases r <;> simp [failure?]

section Sequence
variable {ε σ α β : Type} {x : EStateM ε σ α} {f : α → EStateM ε σ β} {s t u : σ} {a : α} {b : β}

@[simp] theorem pure_apply (a : α) (s : σ) : (pure a : EStateM ε σ α) s = .ok a s := rfl

@[simp] theorem get_bind_apply {f : σ → EStateM ε σ β} (s : σ) : (get >>= f) s = f s s := rfl

@[simp] theorem modify_bind_apply {g : PUnit → EStateM ε σ β} (f : σ → σ) (s : σ) :
    (modify f >>= g) s = g () (f s) := rfl

theorem bind_of_ok (h : x s = .ok a t) : (x >>= f) s = f a t := by
  simp only [bind, EStateM.bind, h]

theorem bind_of_error {e : ε} (h : x s = .error e t) : (x >>= f) s = .error e t := by
  simp only [bind, EStateM.bind, h]

theorem bind_apply_eq {y : EStateM ε σ α} (h : x s = y t) : (x >>= f) s = (y >>= f) t := by
  simp only [bind, EStateM.bind, h]

theorem bind_eq_ok : (x >>= f) s = .ok b u ↔ ∃ a t, x s = .ok a t ∧ f a t = .ok b u := by
  cases h : x s with
  | ok a t =>
    rw [bind_of_ok h]
    constructor
    · intro hf
      exact ⟨a, t, rfl, hf⟩
    · rintro ⟨_, _, ⟨⟩, hf⟩
      exact hf
  | error e t =>
    rw [bind_of_error h]
    constructor
    · intro hf
      cases hf
    · rintro ⟨_, _, ⟨⟩, _⟩

/-- What holds of the state that the last step to run has left holds of the final state. -/
theorem finalState_bind {P : σ → Prop} (hok : ∀ a t, x s = .ok a t → P (finalState (f a t)))
    (herror : ∀ e t, x s = .error e t → P t) : P (finalState ((x >>= f) s)) := by
  cases h : x s with
  | ok a t =>
    rw [bind_of_ok h]
    exact hok a t h
  | error e t =>
    rw [bind_of_error h]
    exact herror e t h

end Sequence

namespace Stack
variable {s : Stack} {places : Nat}

theorem pop_of_nil (h : s.values = []) : pop s = .error (.stackUnderflow 1 0) s := by
  obtain ⟨values, height, mark, hs⟩ := s
  subst h hs
  rfl

/-- A value is taken off, and the mark is not above the height that is left. -/
theorem pop_of_cons {value : Value} {rest : List Value} (h : s.values = value :: rest) :
    ∃ t, pop s = .ok value t ∧ t.values = rest ∧ t.mark = min s.mark rest.length := by
  obtain ⟨values, height, mark, hs⟩ := s
  subst h
  refine ⟨_, rfl, rfl, ?_⟩
  simp only [hs, List.length_cons, Nat.add_sub_cancel]

theorem copyFromTop_of_lt (h : places < s.values.length) :
    copyFromTop places s = .ok () (s.pushed s.values[places]) := by
  have hr : require (places + 1) s = .ok () s := by
    rw [require, if_neg (by rw [s.height_eq]; omega)]
  rw [copyFromTop, bind_of_ok hr]
  refine (bind_of_ok (t := s) rfl).trans ?_
  rw [List.getElem?_eq_getElem h]
  rfl

theorem copyFromTop_of_short (h : s.height < places + 1) :
    copyFromTop places s = .error (.stackUnderflow (places + 1) s.height) s := by
  rw [copyFromTop]
  apply bind_of_error
  rw [require, if_pos h]

theorem rotate_of_short {count : Nat} (h : s.height < count) :
    rotate count s = .error (.stackUnderflow count s.height) s := by
  rw [rotate, if_pos h]

theorem rotate_of_le {count : Nat} (h : count ≤ s.height) :
    ∃ t, rotate count s = .ok () t ∧ t.values = bringToFront (count - 1) s.values ∧
      t.mark = min s.mark (s.height - count) := by
  rw [rotate, if_neg (Nat.not_lt.2 h)]
  exact ⟨_, rfl, rfl, rfl⟩

theorem bringToFront_append {upper : List Value} (below : List Value) (h : places < upper.length) :
    bringToFront places (upper ++ below) = bringToFront places upper ++ below := by
  simp only [bringToFront, List.getElem?_append_left h, List.getElem?_eq_getElem h,
    List.eraseIdx_append_of_lt_length h, List.cons_append]

end Stack

namespace Eval

theorem onStack_eq_ok {α : Type} {op : Stack.Op α} {s t : Session} {a : α} :
    onStack op s = .ok a t ↔ ∃ u, op s.stack = .ok a u ∧ t = { s with stack := u } := by
  rw [onStack]
  cases op s.stack with
  | ok b u =>
    constructor
    · intro h
      cases h
      exact ⟨u, rfl, rfl⟩
    · rintro ⟨_, ⟨⟩, rfl⟩
      rfl
  | error kind u =>
    constructor
    · intro h
      cases h
    · rintro ⟨_, ⟨⟩, -⟩

theorem only_eq_ok {act : Eval Unit} {s t : Session} {next : Option String} :
    only act s = .ok next t ↔ act s = .ok () t ∧ next = none := by
  rw [only, bind_eq_ok]
  constructor
  · rintro ⟨_, _, h, ⟨⟩⟩
    exact ⟨h, rfl⟩
  · rintro ⟨h, rfl⟩
    exact ⟨(), t, h, rfl⟩

theorem finalState_nameWord {α : Type} (name : String) (r : EStateM.Result EvalError Session α) :
    finalState (nameWord name r) = finalState r := by
  cases r <;> rfl

section Draw
variable {s : Session} {outer t : Stack} {rest : List Stack}

theorem draw_outside (h : s.enclosing = []) : draw s = .ok () s := by
  simp only [draw, h]

theorem draw_of_pop {value : Value} (h : s.enclosing = outer :: rest)
    (hp : Stack.pop outer = .ok value t) :
    draw s = .ok () { s with stack := s.stack.pushed value, enclosing := t :: rest } := by
  simp only [draw, h, hp]
  rfl

theorem draw_of_nil (h : s.enclosing = outer :: rest) (hv : outer.values = []) :
    draw s = .error { kind := .stackUnderflow 1 0 } s := by
  obtain ⟨settings, dictionary, stack, enclosing, depth, input, output⟩ := s
  simp only at h
  subst h
  simp only [draw, Stack.pop_of_nil hv]

end Draw

theorem inFrame_of_ok {act : Eval Unit} {name : String} {s t : Session}
    (h : act { s with depth := s.depth + 1 } = .ok () t) :
    inFrame name act s = .ok () { t with depth := t.depth - 1 } := by
  rw [inFrame, h]

theorem inFrame_of_error {act : Eval Unit} {error : EvalError} {name : String} {s t : Session}
    (h : act { s with depth := s.depth + 1 } = .error error t) :
    inFrame name act s = .error (error.inFrame name) { t with depth := t.depth - 1 } := by
  rw [inFrame, h]

theorem arrayScope_of_ok {body : Eval Unit} {s t : Session} {outer : Stack} {rest : List Stack}
    (h : body (scopeEntered s) = .ok () t) (ht : t.enclosing = outer :: rest) :
    arrayScope body s = .ok () { t with
      stack := outer.pushed (.sequence t.stack.fromBottom), enclosing := rest } := by
  simp only [arrayScope, h, scopeLeft, ht]
  rfl

theorem arrayScope_of_error {body : Eval Unit} {error : EvalError} {s t : Session}
    {outer : Stack} {rest : List Stack} (h : body (scopeEntered s) = .error error t)
    (ht : t.enclosing = outer :: rest) :
    arrayScope body s = .error error { t with stack := outer, enclosing := rest } := by
  simp only [arrayScope, h, scopeLeft, ht]
  rfl

theorem enclosing_arrayScope (body : Eval Unit) (s : Session) :
    (finalState (arrayScope body s)).enclosing =
      (finalState (body (scopeEntered s))).enclosing.tail := by
  rw [arrayScope]
  cases body (scopeEntered s) <;> rfl

section Evaluator
variable {call : Caller} {name : String} {s t : Session}

theorem execute_unknown (h : s.dictionary.lookup? name = none) :
    execute call name s = .error { kind := .unknownWord name, word := some name } s := by
  rw [execute]
  split <;> simp_all

theorem execute_user {body : List Token} (h : s.dictionary.lookup? name = some (.user body)) :
    execute call name s = call name body s := by
  rw [execute]
  split <;> simp_all

theorem execute_primitive_error {operation : Primitive} {error : EvalError}
    (h : s.dictionary.lookup? name = some (.primitive operation))
    (hi : invoke call operation s = .error error t) :
    execute call name s = .error (error.atWord name) t := by
  rw [execute]
  split <;> try simp_all
  split <;> simp_all [nameWord]

theorem execute_primitive_ok {operation : Primitive}
    (h : s.dictionary.lookup? name = some (.primitive operation))
    (hi : invoke call operation s = .ok none t) : execute call name s = .ok () t := by
  rw [execute]
  split <;> try simp_all
  split <;> simp_all

theorem execute_primitive_next {operation : Primitive} {next : String}
    (h : s.dictionary.lookup? name = some (.primitive operation))
    (hi : invoke call operation s = .ok (some next) t) :
    execute call name s = nameWord name (execute call next t) := by
  rw [execute]
  split <;> try simp_all
  split <;> simp_all

variable (call)

theorem run_nil : run call [] = pure () := by
  rw [run]

theorem run_number (value : Float) (position : Text.Position) (rest : List Token) :
    run call (⟨.number value, position⟩ :: rest) =
      push (.number value) >>= fun _ => run call rest := by
  rw [run]

theorem run_quoted (name : String) (position : Text.Position) (rest : List Token) :
    run call (⟨.quoted name, position⟩ :: rest) =
      push (.reference name) >>= fun _ => run call rest := by
  rw [run]

theorem run_word (name : String) (position : Text.Position) (rest : List Token) :
    run call (⟨.word name, position⟩ :: rest) = execute call name >>= fun _ => run call rest := by
  rw [run]

theorem run_single (name : String) (position : Text.Position) :
    run call [⟨.word name, position⟩] = execute call name := by
  rw [run_word, run_nil, bind_pure_unit]

theorem run_closer (bracket : Bracket) (position : Text.Position) (rest : List Token) :
    run call (⟨.closer bracket, position⟩ :: rest) =
      fail (.parse (.unexpectedCloser bracket position)) := by
  rw [run]

theorem run_unclosed (bracket : Bracket) (position : Text.Position) {rest : List Token}
    (h : Token.splitAtCloser 0 rest = none) :
    run call (⟨.opener bracket, position⟩ :: rest) =
      fail (.parse (.unclosed bracket position)) := by
  rw [run]
  simp only
  split <;> simp_all

theorem run_opener (bracket : Bracket) (position : Text.Position) {rest body after : List Token}
    (h : Token.splitAtCloser 0 rest = some (body, after)) :
    run call (⟨.opener bracket, position⟩ :: rest) =
      enclosed bracket body (run call body) >>= fun _ => run call after := by
  rw [run]
  simp only
  split <;> simp_all

end Evaluator

end Eval

end StackCalc
