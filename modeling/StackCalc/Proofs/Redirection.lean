import StackCalc.Proofs.Limit
import StackCalc.Proofs.Streams

/-!
Evaluations that write elsewhere. Nothing but `print` ever looks at the output, so an evaluation
goes the same way whatever the output is, until a line is printed.
-/
namespace StackCalc

open Eval

/-- The session with another stream to print to. -/
def Session.writingTo (output : Output) (s : Session) : Session :=
  { s with output }

/-- The session without the value on top of its stack. -/
def Session.popped (s : Session) : Session :=
  { s with stack := s.stack.dropped 1 }

namespace Eval

/-- The computation goes the same way whatever the output is, and leaves as many scopes open as it
has found. -/
structure Blind {α : Type} (x : Eval α) : Prop where
  result : ∀ (s : Session) (out : Output),
    x (s.writingTo out) = mapResult id (Session.writingTo out) (x s)
  enclosing : ∀ s, (finalState (x s)).enclosing.length = s.enclosing.length

namespace Blind
variable {α β : Type}

theorem bind {x : Eval α} {f : α → Eval β} (hx : Blind x) (hf : ∀ a, Blind (f a)) :
    Blind (x >>= f) where
  result s out := by
    cases h : x s with
    | ok a t =>
      have hout : x (s.writingTo out) = .ok a (t.writingTo out) := by
        rw [hx.result, h]
        rfl
      rw [bind_of_ok h, bind_of_ok hout, (hf a).result]
    | error error t =>
      have hout : x (s.writingTo out) = .error error (t.writingTo out) := by
        rw [hx.result, h]
        rfl
      rw [bind_of_error h, bind_of_error hout]
      rfl
  enclosing s := by
    have henclosing := hx.enclosing s
    refine finalState_bind (P := fun t : Session => t.enclosing.length = s.enclosing.length) ?_ ?_
    · intro a t h
      rw [h] at henclosing
      exact ((hf a).enclosing t).trans henclosing
    · intro error t h
      rw [h] at henclosing
      exact henclosing

theorem pure (a : α) : Blind (Pure.pure a) :=
  ⟨fun _ _ => rfl, fun _ => rfl⟩

theorem fail (kind : ErrorKind) : Blind (Eval.fail kind : Eval α) :=
  ⟨fun _ _ => rfl, fun _ => rfl⟩

theorem onStack (op : Stack.Op α) : Blind (Eval.onStack op) where
  result s out := by
    simp only [Eval.onStack, Session.writingTo]
    cases op s.stack <;> rfl
  enclosing s := by
    rw [Eval.onStack]
    cases op s.stack <;> rfl

theorem push (value : Value) : Blind (Eval.push value) :=
  onStack _

theorem height : Blind Eval.height :=
  ⟨fun _ _ => rfl, fun _ => rfl⟩

theorem binary (f : Float → Float → Float) : Blind (Eval.binary f) :=
  (onStack _).bind fun _ => push _

theorem binaryNonzero (f : Float → Float → Float) : Blind (Eval.binaryNonzero f) := by
  refine (onStack _).bind ?_
  rintro ⟨a, b⟩
  simp only
  split
  · exact fail _
  · exact push _

theorem define : Blind Eval.define :=
  (onStack _).bind fun _ => ⟨fun _ _ => rfl, fun _ => rfl⟩

theorem addAlias : Blind Eval.addAlias := by
  refine (onStack _).bind fun operands => ⟨fun s out => ?_, fun s => ?_⟩
  · simp only [get_bind_apply, Session.writingTo]
    cases s.dictionary.addAlias operands.1 operands.2 <;> rfl
  · simp only [get_bind_apply]
    cases s.dictionary.addAlias operands.1 operands.2 <;> rfl

theorem sum : Blind Eval.sum := by
  refine (onStack _).bind fun items => ?_
  cases Eval.total 0 items with
  | ok value => exact push _
  | error kind => exact fail _

theorem draw : Blind Eval.draw where
  result s out := by
    obtain ⟨t, ht⟩ : ∃ t, t = s.writingTo out := ⟨_, rfl⟩
    have henclosing : t.enclosing = s.enclosing := ht ▸ rfl
    rw [← ht]
    cases he : s.enclosing with
    | nil =>
      rw [draw_outside he, draw_outside (henclosing.trans he), ht]
      rfl
    | cons outer rest =>
      cases hv : outer.values with
      | nil =>
        rw [draw_of_nil he hv, draw_of_nil (henclosing.trans he) hv, ht]
        rfl
      | cons value values =>
        obtain ⟨u, hp, -, -⟩ := Stack.pop_of_cons hv
        rw [draw_of_pop he hp, draw_of_pop (henclosing.trans he) hp, ht]
        rfl
  enclosing s := by
    cases he : s.enclosing with
    | nil =>
      rw [draw_outside he]
      exact congrArg List.length he
    | cons outer rest =>
      cases hv : outer.values with
      | nil =>
        rw [draw_of_nil he hv]
        exact congrArg List.length he
      | cons value values =>
        obtain ⟨u, hp, -, -⟩ := Stack.pop_of_cons hv
        rw [draw_of_pop he hp]
        rfl

theorem readNumber : Blind Eval.readNumber where
  result s out := by
    simp only [Eval.readNumber, get_bind_apply, Session.writingTo]
    split
    · rfl
    · simp only [modify_bind_apply]
      cases Eval.lineNumber? (Input.splitLine s.input).1 <;> rfl
  enclosing s := by
    simp only [Eval.readNumber, get_bind_apply]
    split
    · rfl
    · simp only [modify_bind_apply]
      cases Eval.lineNumber? (Input.splitLine s.input).1 <;> rfl

/-- A primitive that calls nothing is finished once it has been invoked. -/
theorem finished {act : Eval Unit} (h : Blind act) :
    Blind (do
      let _ ← Eval.only act
      return Sequel.finished) :=
  (h.bind fun _ => pure _).bind fun _ => pure _

theorem start {operation : Primitive} (hp : operation ≠ .print) :
    Blind (Eval.start operation) := by
  cases operation with
  | add | subtract | multiply | power | logarithm | larger | smaller | compare =>
    exact finished (binary _)
  | divide | remainder => exact finished (binaryNonzero _)
  | copy | copySecond | swap | rotate3 => exact finished (onStack _)
  | drop => exact finished ((onStack _).bind fun _ => pure _)
  | define => exact finished define
  | addAlias => exact finished addAlias
  | map | filter | fold => exact (onStack _).bind fun _ => height.bind fun _ => pure _
  | fold1 =>
    refine (onStack _).bind ?_
    rintro ⟨items, body⟩
    cases items with
    | nil => exact fail _
    | cons first rest => exact height.bind fun _ => pure _
  | iterate => exact (onStack _).bind fun _ => pure _
  | choose =>
    refine (onStack _).bind ?_
    rintro ⟨condition, whenTrue, whenFalse⟩
    simp only
    cases if condition != 0 then whenTrue else whenFalse with
    | quotation body => exact pure _
    | _ => exact (push _).bind fun _ => pure _
  | apply =>
    refine (onStack _).bind fun value => ?_
    cases value with
    | quotation body => exact pure _
    | reference name => exact pure _
    | _ => exact fail _
  | length => exact finished ((onStack _).bind fun _ => push _)
  | sum => exact finished sum
  | draw => exact finished draw
  | readNumber => exact finished readNumber
  | print => exact absurd rfl hp

theorem accept (low base : Nat) : Blind (Eval.accept low base) := by
  refine height.bind fun left => ?_
  split
  · exact fail _
  · exact onStack _

end Blind

end Eval

namespace Moment

/-- The moment with another stream to print to. -/
def writingTo (out : Output) (m : Moment) : Moment :=
  { m with session := m.session.writingTo out }

theorem after_mapResult {α : Type} (next : α → Task) (frames : List Frame)
    (r : EStateM.Result EvalError Session α) (out : Output) :
    after next frames (mapResult id (Session.writingTo out) r) =
      (after next frames r).writingTo out := by
  cases r <;> rfl

theorem writingTo_runStep (tokens : List Token) (frames : List Frame) (s : Session)
    (out : Output) :
    runStep frames (s.writingTo out) tokens = (runStep frames s tokens).writingTo out := by
  cases tokens with
  | nil => rfl
  | cons token rest =>
    obtain ⟨kind, position⟩ := token
    cases kind with
    | opener bracket =>
      simp only [runStep]
      cases Token.splitAtCloser 0 rest with
      | none => rfl
      | some parts => cases bracket <;> rfl
    | _ => rfl

theorem writingTo_executeStep {name : String} {s : Session}
    (hp : s.dictionary.lookup? name ≠ some (.primitive .print)) (frames : List Frame)
    (out : Output) :
    executeStep frames (s.writingTo out) name = (executeStep frames s name).writingTo out := by
  simp only [executeStep, Session.writingTo]
  cases hl : s.dictionary.lookup? name with
  | none => rfl
  | some definition =>
    cases definition with
    | user body => rfl
    | primitive operation =>
      have hne : operation ≠ .print := by
        rintro rfl
        exact hp hl
      have hstart := (Blind.start hne).result s out
      simp only
      rw [← after_mapResult, ← hstart]
      rfl

theorem writingTo_resume (frame : Frame) (frames : List Frame) (s : Session) (out : Output) :
    resume frames (s.writingTo out) frame = (resume frames s frame).writingTo out := by
  cases frame with
  | watch outer item loop =>
    have haccept := (Blind.accept s.stack.mark loop.base).result (watchLeft outer s) out
    rw [resume, resume, ← after_mapResult, ← haccept]
    rfl
  | _ => rfl

theorem writingTo_leave (frame : Frame) (s : Session) (out : Output) :
    frame.leave (s.writingTo out) = (frame.leave s).writingTo out := by
  cases frame <;> rfl

theorem start_print_of_nil {s : Session} (h : s.stack.values = []) :
    start .print s = .error { kind := .stackUnderflow 1 0 } s :=
  bind_of_error (bind_of_error (print_of_nil h))

theorem start_print_of_cons {s : Session} {value : Value} {rest : List Value}
    (h : s.stack.values = value :: rest) :
    start .print s =
      match Output.writeLine value.render s.output with
      | .ok () out => .ok .finished (s.popped.writingTo out)
      | .error fault out => .error { kind := .io fault } (s.popped.writingTo out) := by
  have hprint := print_of_cons h
  have hstart : start .print s = (Eval.only Eval.print >>= fun _ => pure Sequel.finished) s := rfl
  cases hw : Output.writeLine value.render s.output with
  | ok _ out =>
    rw [hw] at hprint
    rw [hstart, bind_of_ok (only_eq_ok.2 ⟨hprint, rfl⟩)]
    rfl
  | error fault out =>
    rw [hw] at hprint
    rw [hstart]
    exact bind_of_error (bind_of_error hprint)

/-- Whatever a primitive does by itself, it leaves as many scopes open as it has found. -/
theorem length_enclosing_start (operation : Primitive) (s : Session) :
    (finalState (start operation s)).enclosing.length = s.enclosing.length := by
  by_cases hp : operation = .print
  · subst hp
    cases hv : s.stack.values with
    | nil =>
      rw [start_print_of_nil hv]
      rfl
    | cons value rest =>
      rw [start_print_of_cons hv]
      cases Output.writeLine value.render s.output <;> rfl
  · exact (Blind.start hp).enclosing s

/-- The next step prints the value. -/
inductive Writes (value : Value) : Moment → Prop where
  | intro {name : String} {frames : List Frame} {s : Session} {rest : List Value} :
      s.dictionary.lookup? name = some (.primitive .print) → s.stack.values = value :: rest →
      Writes value ⟨.execute name, frames, s⟩

theorem Writes.line {value : Value} {m : Moment} (h : m.Writes value) :
    m.line = Output.bytes (value.render ++ "\n") := by
  obtain ⟨hl, hv⟩ := h
  simp only [Moment.line, hl, Stack.top?, hv, List.head?_cons]

/-- A step that prints nothing is the same whatever the output is. -/
theorem writes_or_blind (m : Moment) : (∃ value, m.Writes value) ∨
    m.line = [] ∧ ∀ out, (m.writingTo out).step = m.step.map (writingTo out) := by
  obtain ⟨task, frames, s⟩ := m
  cases task with
  | run tokens => exact .inr ⟨rfl, fun out => congrArg some (writingTo_runStep tokens frames s out)⟩
  | execute name =>
    by_cases hp : s.dictionary.lookup? name = some (.primitive .print)
    · cases hv : s.stack.values with
      | cons value rest => exact .inl ⟨value, .intro hp hv⟩
      | nil =>
        -- without a value the word fails
        refine .inr ⟨by simp only [Moment.line, hp, Stack.top?, hv, List.head?_nil], fun out => ?_⟩
        have hstep {t : Session} (hl : t.dictionary.lookup? name = some (.primitive .print))
            (ht : t.stack.values = []) : executeStep frames t name =
              ⟨.raise { kind := .stackUnderflow 1 0 }, .primitive name .print :: frames, t⟩ := by
          simp only [executeStep, hl, start_print_of_nil ht]
          rfl
        exact congrArg some ((hstep hp hv).symm ▸ hstep (t := s.writingTo out) hp hv)
    · refine .inr ⟨line_of_not_invokes ?_, fun out =>
        congrArg some (writingTo_executeStep hp frames out)⟩
      rintro ⟨_, ⟨⟩, hl⟩
      exact hp hl
  | raise error =>
    cases frames with
    | nil => exact .inr ⟨rfl, fun _ => rfl⟩
    | cons frame frames =>
      refine .inr ⟨rfl, fun out => ?_⟩
      simp only [writingTo, step, writingTo_leave]
      rfl
  | proceed sequel =>
    refine .inr ⟨rfl, fun out => ?_⟩
    cases sequel with
    | finished =>
      cases frames with
      | nil => rfl
      | cons frame frames => exact congrArg some (writingTo_resume frame frames s out)
    | call name body =>
      simp only [writingTo, step, callStep, Session.writingTo]
      split <;> rfl
    | again name body count => cases count <;> rfl
    | gather loop =>
      obtain ⟨frame, body, base, harvest, items⟩ := loop
      cases items with
      | nil => rfl
      | cons item items => cases harvest <;> rfl
    | word name => rfl

end Moment

end StackCalc
