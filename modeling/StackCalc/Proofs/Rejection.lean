import StackCalc.Proofs.Diagnostics

/-!
The error with which a combinator rejects a body. Only `map`, `filter`, `fold` and `fold1` raise it.
It counts the values that the body has left above the operands' place or, where the body has dug
below that, above the lowest height that it reached.
-/
namespace StackCalc

open Eval Moment

/-- The primitives that ask a body for one value in place of its operands. -/
def Primitive.Gathers : Primitive → Prop
  | .map | .filter | .fold | .fold1 => True
  | _ => False

theorem gathers_of_start {operation : Primitive} {loop : Gathering} {s t : Session}
    (h : start operation s = .ok (.gather loop) t) :
    operation.Gathers ∧ operation.name = loop.frame := by
  refine ⟨?_, ((Plain.start operation).of_ok s.meets_any h).1.1.symm⟩
  cases operation with
  | map | filter | fold | fold1 => trivial
  | choose =>
    obtain ⟨⟨condition, whenTrue, whenFalse⟩, u, -, hnext⟩ := bind_eq_ok.1 h
    simp only at hnext
    generalize (if condition != 0 then whenTrue else whenFalse) = value at hnext
    cases value <;> cases hnext
  | apply =>
    obtain ⟨value, u, -, hnext⟩ := bind_eq_ok.1 h
    cases value <;> cases hnext
  | _ =>
    obtain ⟨operands, u, -, hnext⟩ := bind_eq_ok.1 h
    cases hnext

/-- The loop belongs to a primitive that gathers. -/
def Gathering.Apt (loop : Gathering) : Prop :=
  ∃ operation : Primitive, operation.Gathers ∧ operation.name = loop.frame

def Task.Apt : Task → Prop
  | proceed (.gather loop) => loop.Apt
  | _ => True

def Frame.Apt : Frame → Prop
  | watch _ _ loop => loop.Apt
  | _ => True

/-- All loops belong to primitives that gather. -/
structure Moment.Apt (m : Moment) : Prop where
  task : m.task.Apt
  frames : ∀ frame ∈ m.frames, frame.Apt

theorem Moment.Apt.advance {m n : Moment} (h : Advance m n) (hm : m.Apt) : n.Apt := by
  obtain ⟨htask, hframes⟩ := hm
  -- a frame more, or a frame less
  have hopen {frame : Frame} {frames : List Frame} (hframe : frame.Apt)
      (hframes : ∀ f ∈ frames, f.Apt) : ∀ f ∈ frame :: frames, f.Apt :=
    List.forall_mem_cons.2 ⟨hframe, hframes⟩
  have hclose {frame : Frame} {frames : List Frame} (hframes : ∀ f ∈ frame :: frames, f.Apt) :
      frame.Apt ∧ ∀ f ∈ frames, f.Apt := List.forall_mem_cons.1 hframes
  cases h with
  | @primitive name operation sequel frames s t hl hs =>
    refine ⟨?_, hopen trivial hframes⟩
    cases sequel with
    | gather loop => exact ⟨operation, gathers_of_start hs⟩
    | _ => trivial
  | word | failed | entered | again | applied => exact ⟨trivial, hopen trivial hframes⟩
  | scope => exact ⟨trivial, hopen trivial (hopen trivial hframes)⟩
  | offered => exact ⟨trivial, hopen htask hframes⟩
  | accepted => exact ⟨(hclose hframes).1, (hclose hframes).2⟩
  | onward | returned | built | invoked | executed | repeats | rejected | unwound =>
    exact ⟨trivial, (hclose hframes).2⟩
  | _ => exact ⟨trivial, hframes⟩

/-- What a combinator says of a stack that a body has left, whose operands lay on `base` values: it
rejects the body if that has dug below them or has not left one value. -/
structure Stack.Rejected (s : Stack) (base expected found : Nat) : Prop where
  astray : s.mark < base ∨ s.height ≠ base + 1
  expected : expected = 1
  found : found = s.height - min s.mark base

/-- The counts agree if the body has dug below its operands and left one value on what it spared. -/
theorem Stack.Rejected.agree_iff {s : Stack} {base expected found : Nat}
    (h : s.Rejected base expected found) :
    found = expected ↔ s.mark < base ∧ s.height = s.mark + 1 := by
  obtain ⟨hastray, rfl, rfl⟩ := h
  rcases Nat.lt_or_ge s.mark base with hm | hm
  · rw [Nat.min_eq_left hm.le]
    omega
  · rw [Nat.min_eq_right hm]
    omega

theorem rejected_of_accept {outer base expected found : Nat} {u t : Session} {error : EvalError}
    (h : accept u.stack.mark base (watchLeft outer u) = .error error t)
    (hk : error.kind = .arity expected found) : u.stack.Rejected base expected found := by
  have hheight : height (watchLeft outer u) = .ok u.stack.height (watchLeft outer u) := rfl
  rw [accept, bind_of_ok hheight] at h
  split at h
  next hastray =>
    cases h
    cases hk
    exact ⟨by simpa using hastray, rfl, rfl⟩
  next =>
    -- what is left is to take the value off, and that raises no arity error
    have hpop : Plain .any False False ErrorKind.IsOwn _ (onStack Stack.pop) := .onStack .pop
    have hown := (hpop.of_error (Session.meets_any _) h).1.kind
    exact absurd hk (hown.ne_arity expected found)

/-- Nothing but the rejection of a body is an arity error. -/
theorem Moment.Raises.rejected {m : Moment} {raised : EvalError} {frames : List Frame} {s : Session}
    {expected found : Nat} (h : m.Raises raised frames s)
    (hk : raised.kind = .arity expected found) :
    ∃ outer item loop u, m = finished (.watch outer item loop :: frames) u ∧
      u.stack.Rejected loop.base expected found := by
  have hcalm := h.calm
  cases advance_of_step h.step with
  | closer | unclosed | unknown | refused => cases hk
  | @failed name operation error below u t hl hs =>
    have hown := ((Plain.start operation).of_error u.meets_any hs).1.kind
    exact absurd hk (hown.ne_arity expected found)
  | @rejected outer item loop error frames u t ha =>
    exact ⟨outer, item, loop, u, rfl, rejected_of_accept ha hk⟩
  | unwound => exact absurd rfl (hcalm _)

/-- An arity error comes from `map`, `filter`, `fold` or `fold1`, when a call of the body has
returned. One value is expected. What is found is counted from where the operands had been put, or
from the lowest height to which the body has cut the stack down, whichever is lower. It is not the
one value that is expected, unless the body has dug below its operands and left a single value on
what it has spared. -/
theorem arity_of_load {source : String} {s t : Session} {error : EvalError} {expected found : Nat}
    (hl : load source s = .error error t) (hk : error.kind = .arity expected found) :
    ∃ tokens outer item loop word operation below u, tokenize source = .ok tokens ∧
      (outset tokens s).Leads
        (finished (.watch outer item loop :: .primitive word operation :: below) u) ∧
      operation.Gathers ∧ operation.name = loop.frame ∧
      u.stack.Rejected loop.base expected found ∧
      (found = expected ↔ u.stack.mark < loop.base ∧ u.stack.height = u.stack.mark + 1) := by
  cases htokens : tokenize source with
  | error fault =>
    rw [load, htokens] at hl
    cases hl
    cases hk
  | ok tokens =>
    have hend := leads_load htokens s
    rw [hl] at hend
    obtain ⟨m, raised, frames, v, hm, hr, hunwinds⟩ := hend.exists_raises rfl (by rintro _ ⟨⟩)
    obtain ⟨left, -, herror⟩ := Leads.unwinds hunwinds
    obtain rfl : error = noted left raised := Task.raise.inj herror
    rw [kind_noted] at hk
    obtain ⟨outer, item, loop, u, rfl, hrejected⟩ := hr.rejected hk
    obtain ⟨word, operation, below, rfl, hname⟩ := hm.ordered.frames.1
    have hapt : Apt (finished _ u) :=
      hm.preserves ⟨trivial, List.forall_mem_nil _⟩ fun _ => Apt.advance
    -- the frame is called by the name of a primitive that gathers, so this is the one
    obtain ⟨gatherer, hgathers, hframe⟩ := hapt.frames _ List.mem_cons_self
    obtain rfl : operation = gatherer := Primitive.name_injective (hname.trans hframe.symm)
    exact ⟨tokens, outer, item, loop, word, operation, below, u, rfl, hm, hgathers, hname,
      hrejected, hrejected.agree_iff⟩

/-- A body that takes both the value below its operand and the operand, and leaves two. -/
theorem arity_of_two_left : ∃ error t,
    load "9 [1 2] { pop pop 5 5 } map" .bare = .error error t ∧ error.kind = .arity 1 2 ∧
    ∃ tokens outer item loop word operation below u,
      tokenize "9 [1 2] { pop pop 5 5 } map" = .ok tokens ∧
      (outset tokens .bare).Leads
        (finished (.watch outer item loop :: .primitive word operation :: below) u) ∧
      operation.Gathers ∧ operation.name = loop.frame ∧ u.stack.Rejected loop.base 1 2 ∧
      (2 = 1 ↔ u.stack.mark < loop.base ∧ u.stack.height = u.stack.mark + 1) := by
  have hfails : failure? (load "9 [1 2] { pop pop 5 5 } map" .bare) =
      some { kind := .arity 1 2, word := some "map" } := by
    decide +kernel
  obtain ⟨t, hload⟩ := failure?_eq_some.1 hfails
  exact ⟨_, t, hload, rfl, arity_of_load hload rfl⟩

/-- A body that takes the value below its operand away and leaves the operand is said to have left
the one value that is expected. -/
theorem arity_of_one_left : ∃ error t,
    load "7 [1] { swap pop } filter" .bare = .error error t ∧ error.kind = .arity 1 1 ∧
    error.message =
      "quotation must leave exactly 1 value(s) on the stack, left 1 in 'filter'" := by
  have hfails : failure? (load "7 [1] { swap pop } filter" .bare) =
      some { kind := .arity 1 1, word := some "filter" } := by
    decide +kernel
  obtain ⟨t, hload⟩ := failure?_eq_some.1 hfails
  exact ⟨_, t, hload, rfl, by decide +kernel⟩

end StackCalc
