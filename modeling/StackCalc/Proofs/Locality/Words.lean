import StackCalc.Proofs.Locality.Operations

/-!
The words that run no bodies run in parallel with themselves.
-/
namespace StackCalc.Parallel

open Eval

variable {w : World} {α : Type}

/-- For the second part it is enough that the stacks that are set aside stay as they are. -/
theorem of_enclosing_eq {x : Eval α} (ha : ∀ {s s'}, Alike w s s' → Agree w id (x s) (x s'))
    (he : ∀ s, (finalState (x s)).enclosing = s.enclosing) : Parallel w id x x :=
  ⟨ha, fun s => (he s).symm ▸ Sunk.refl s.enclosing⟩

theorem push (value : Value) : Parallel w id (Eval.push value) (Eval.push value) :=
  onStack (OpParallel.push value)

theorem binary (f : Float → Float → Float) : Parallel w id (Eval.binary f) (Eval.binary f) :=
  bind (onStack OpParallel.popNumbers) fun _ => push _

theorem binaryNonzero (f : Float → Float → Float) :
    Parallel w id (Eval.binaryNonzero f) (Eval.binaryNonzero f) := by
  refine bind (onStack OpParallel.popNumbers) ?_
  rintro ⟨a, b⟩
  simp only [id]
  split
  · exact fail _
  · exact push _

theorem define : Parallel w id Eval.define Eval.define := by
  refine bind (onStack ?_) ?_
  · exact .bind (.require 2) fun _ => .bind .popQuotation fun _ => .bind .popReference fun _ =>
      .pure _
  · rintro ⟨name, body⟩
    refine of_enclosing_eq ?_ fun _ => rfl
    intro s s' h
    refine .ok { h with dictionary := ?_ }
    simp only [h.dictionary]

theorem addAlias : Parallel w id Eval.addAlias Eval.addAlias := by
  refine bind (onStack ?_) ?_
  · exact .bind (.require 2) fun _ => .bind .popReference fun _ => .bind .popReference fun _ =>
      .pure _
  · rintro ⟨name, source⟩
    refine of_enclosing_eq ?_ ?_
    · intro s s' h
      simp only [get_bind_apply, h.dictionary]
      cases s.dictionary.addAlias name source with
      | ok dictionary => exact .ok { h with dictionary := rfl }
      | error kind => exact .error h
    · intro s
      simp only [get_bind_apply]
      cases s.dictionary.addAlias name source <;> rfl

theorem length : Parallel w id Eval.length Eval.length :=
  bind (onStack OpParallel.popSequence) fun _ => push _

theorem sum : Parallel w id Eval.sum Eval.sum := by
  refine bind (onStack OpParallel.popSequence) ?_
  intro items
  simp only [id]
  cases total 0 items with
  | ok value => exact push _
  | error kind => exact fail kind

theorem draw : Parallel w id Eval.draw Eval.draw := by
  constructor
  · intro s s' h
    have he := h.enclosing
    generalize hw : w.outer = fs at he
    generalize hs : s.enclosing = ss at he
    generalize hs' : s'.enclosing = ss' at he
    cases he with
    | nil =>
      rw [draw_outside hs, draw_outside hs']
      exact .ok h
    | @cons f fs outer outer' ss ss' hb hr =>
      rcases hb.pop with ⟨value, t, t', hp, hp', ht⟩ | ⟨value, t, hp, ht⟩ | ⟨hn, hf, hn'⟩
      · rw [draw_of_pop hs hp, draw_of_pop hs' hp']
        exact .ok { h with stack := h.stack.pushed value, enclosing := hw ▸ .cons ht hr }
      · rw [draw_of_pop hs hp]
        apply Agree.dug
        rw [hw]
        exact .here ht
      · rw [draw_of_nil hs hn]
        by_cases hf' : f.second = []
        · rw [draw_of_nil hs' (hn' hf')]
          exact .error h
        · refine .short (fun hev => hf' ?_) trivial
          exact (hev.2 f (hw ▸ List.mem_cons_self)).trans hf
  · intro s
    cases hs : s.enclosing with
    | nil =>
      rw [draw_outside hs]
      exact hs ▸ Sunk.refl _
    | cons outer rest =>
      cases hv : outer.values with
      | nil =>
        rw [draw_of_nil hs hv]
        exact hs ▸ Sunk.refl _
      | cons value values =>
        obtain ⟨t, hp, ht, -⟩ := Stack.pop_of_cons hv
        rw [draw_of_pop hs hp]
        refine .cons ?_ (Sunk.refl rest)
        rw [t.height_eq, ht, outer.height_eq, hv, List.length_cons]
        omega

theorem readNumber : Parallel w id Eval.readNumber Eval.readNumber := by
  refine of_enclosing_eq ?_ ?_
  · intro s s' h
    simp only [Eval.readNumber, get_bind_apply, h.input]
    cases s.input.isEmpty with
    | true => exact .error h
    | false =>
      simp only [Bool.false_eq_true, if_false, modify_bind_apply]
      cases lineNumber? (Input.splitLine s.input).1 with
      | ok value => exact .ok { h with input := rfl, stack := h.stack.pushed _ }
      | error kind => exact .error { h with input := rfl }
  · intro s
    simp only [Eval.readNumber, get_bind_apply]
    cases s.input.isEmpty with
    | true => rfl
    | false =>
      simp only [Bool.false_eq_true, if_false, modify_bind_apply]
      cases lineNumber? (Input.splitLine s.input).1 <;> rfl

theorem print : Parallel w id Eval.print Eval.print := by
  refine bind (onStack OpParallel.pop) ?_
  intro value
  refine of_enclosing_eq ?_ ?_
  · intro s s' h
    obtain ⟨before, ho, ho'⟩ := h.output
    obtain ⟨c, hw | ⟨fault, hw⟩⟩ := (w.outputs.after before).writeLine value.render
    · simp only [ho, ho', hw]
      exact .ok { h with output := ⟨before ++ c, Output.after_after .., Output.after_after ..⟩ }
    · simp only [ho, ho', hw]
      exact .error { h with output := ⟨before ++ c, Output.after_after .., Output.after_after ..⟩ }
  · intro s
    cases Output.writeLine value.render s.output <;> rfl

end StackCalc.Parallel
