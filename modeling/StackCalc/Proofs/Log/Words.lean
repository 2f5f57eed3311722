import StackCalc.Proofs.Log.Evaluation

/-!
The logs of the words that run no other words. Only the drawing word reaches beyond the current
stack.
-/
namespace StackCalc

open Eval

namespace Eval.Still
variable {α : Type} {count : Nat}

/-- A computation that first looks at the session. -/
theorem getBind {f : Session → Eval α} (hf : ∀ s, Still count (f s)) :
    Still count (get >>= f) := by
  constructor
  · intro s
    exact (hf s).accounts s
  · intro s t a hr hs
    exact (hf s).keeps hr hs

theorem only {act : Eval Unit} (h : Still count act) : Still count (Eval.only act) :=
  h.bind fun _ => pure none

/-- A change of the dictionary and the streams. -/
theorem update {f : Session → Session} (h : ∀ s, (f s).settings = s.settings ∧
      (f s).depth = s.depth ∧ (f s).enclosing = s.enclosing ∧ (f s).stack = s.stack) :
    Still 0 (modify f : Eval PUnit) :=
  of_stack_eq h

theorem binary (f : Float → Float → Float) : Still 2 (Eval.binary f) :=
  (onStack .popNumbers).bind fun (_, _) => push _

theorem binaryNonzero (f : Float → Float → Float) : Still 2 (Eval.binaryNonzero f) := by
  refine (onStack .popNumbers).bind ?_
  rintro ⟨a, b⟩
  simp only
  split
  · exact fail _
  · exact push _

theorem rotate {count : Nat} (hc : 0 < count) : Still count (Eval.onStack (Stack.rotate count)) :=
  of_kept fun h _ => .rotate hc h

theorem define : Still 2 Eval.define := by
  refine (onStack ?_).bind fun (_, _) => update fun _ => ⟨rfl, rfl, rfl, rfl⟩
  exact .bind (.require 2) fun _ => .bind .popQuotation fun _ => .bind .popReference fun _ =>
    .pure _

theorem addAlias : Still 2 Eval.addAlias := by
  refine (onStack ?_).bind ?_
  · exact .bind (.require 2) fun _ => .bind .popReference fun _ => .bind .popReference fun _ =>
      .pure _
  rintro ⟨name, source⟩
  refine getBind fun s => ?_
  cases s.dictionary.addAlias name source with
  | ok dictionary => exact update fun _ => ⟨rfl, rfl, rfl, rfl⟩
  | error kind => exact fail kind

theorem length : Still 1 Eval.length :=
  (onStack .popSequence).bind fun _ => push _

theorem sum : Still 1 Eval.sum := by
  refine (onStack .popSequence).bind ?_
  intro items
  cases total 0 items with
  | ok value => exact push _
  | error kind => exact fail kind

theorem readNumber : Still 0 Eval.readNumber := by
  refine getBind fun s => ?_
  simp only
  split
  · exact fail _
  · refine bind (update ?_) ?_
    · exact fun _ => ⟨rfl, rfl, rfl, rfl⟩
    intro _
    cases lineNumber? (Input.splitLine s.input).1 with
    | ok value => exact push _
    | error kind => exact fail kind

theorem print : Still 1 Eval.print := by
  refine (onStack .pop).bind ?_
  intro value
  refine of_stack_eq ?_
  intro s
  cases Output.writeLine value.render s.output <;> exact ⟨rfl, rfl, rfl, rfl⟩

end Eval.Still

theorem Stack.Drawn.pop {outer t : Stack} {value : Value} (h : Stack.pop outer = .ok value t) :
    Stack.Drawn [value] [outer.height - 1] outer t := by
  obtain ⟨rest, hv, rfl⟩ := Stack.pop_eq_ok.1 h
  refine ⟨?_, rfl, fun _ => Nat.min_le_right _ _⟩
  rw [Stack.values_dropped, hv, List.drop_succ_cons, List.drop_zero, List.singleton_append]

/-- What drawing does to the stacks that are set aside, as the log tells it. -/
theorem SetAside.draw {s : Session} {outer t : Stack} {rest : List Stack} {value : Value}
    (hs : s.enclosing = outer :: rest) (hp : Stack.pop outer = .ok value t) :
    SetAside [⟨.draw, s⟩] (outer :: rest) (t :: rest) := by
  obtain ⟨below, hv, -⟩ := Stack.pop_eq_ok.1 hp
  have hd : drawnAt (rest.length + 1) [(⟨.draw, s⟩ : Invocation)] = [value] := by
    simp [drawnAt, Invocation.drawn, Invocation.level, hs, Stack.top?, hv]
  have ht : touchedAt rest.length [(⟨.draw, s⟩ : Invocation)] = [outer.height - 1] := by
    simp [touchedAt, Invocation.touched, Invocation.level, hs, Stack.isEmpty, hv]
  refine .cons ?_
  rw [hd, ht]
  exact .pop hp

/-- There is nothing to draw from an empty stack. -/
theorem SetAside.draw_nil {s : Session} {outer : Stack} {rest : List Stack}
    (hs : s.enclosing = outer :: rest) (hv : outer.values = []) :
    SetAside [⟨.draw, s⟩] (outer :: rest) (outer :: rest) := by
  have hd : drawnAt (rest.length + 1) [(⟨.draw, s⟩ : Invocation)] = [] := by
    simp [drawnAt, Invocation.drawn, Invocation.level, hs, Stack.top?, hv]
  have ht : touchedAt rest.length [(⟨.draw, s⟩ : Invocation)] = [] := by
    simp [touchedAt, Invocation.touched, Invocation.level, hs, Stack.isEmpty, hv]
  refine .cons ?_
  rw [hd, ht]
  exact .refl outer

namespace Log.Sound

/-- The drawn value comes off the stack that is set aside, and is pushed on the current one. -/
theorem draw : Sound (Log.note .draw (Log.silent : Log (Eval.only Eval.draw))) := by
  constructor
  · intro s
    have hl : ∀ e ∈ [(⟨.draw, s⟩ : Invocation)], s.enclosing.length ≤ e.level := by
      intro e he
      rw [List.mem_singleton.1 he]
      exact Nat.le_refl _
    rw [Log.note, Log.silent]
    cases hs : s.enclosing with
    | nil =>
      rw [Eval.only, StackCalc.bind_of_ok (draw_outside hs)]
      refine ⟨rfl, rfl, hl, ?_⟩
      rw [pure_apply, finalState, hs]
      exact .nil
    | cons outer rest =>
      cases hv : outer.values with
      | nil =>
        rw [Eval.only, StackCalc.bind_of_error (draw_of_nil hs hv)]
        refine ⟨rfl, rfl, hl, ?_⟩
        rw [finalState, hs]
        exact .draw_nil hs hv
      | cons value values =>
        obtain ⟨t, hp, -, -⟩ := Stack.pop_of_cons hv
        rw [Eval.only, StackCalc.bind_of_ok (draw_of_pop hs hp)]
        refine ⟨rfl, rfl, hl, ?_⟩
        rw [pure_apply, finalState, hs]
        exact .draw hs hp
  · intro s u next h hs
    rw [Log.note, Log.silent, touchedAt_note]
    cases he : s.enclosing with
    | nil =>
      rw [Eval.only, StackCalc.bind_of_ok (draw_outside he)] at h
      cases h
      exact .refl hs
    | cons outer rest =>
      cases hv : outer.values with
      | nil =>
        rw [Eval.only, StackCalc.bind_of_error (draw_of_nil he hv)] at h
        cases h
      | cons value values =>
        obtain ⟨t, hp, -, -⟩ := Stack.pop_of_cons hv
        rw [Eval.only, StackCalc.bind_of_ok (draw_of_pop he hp)] at h
        cases h
        exact (Stack.Kept.refl hs).pushed value

end Log.Sound

end StackCalc
