import StackCalc.Proofs.Simulation.Operations

/-!
The words that run no bodies. In related sessions they do the same; in particular corresponding
values are written as the same text.
-/
namespace StackCalc

/-! The text of a value. -/

section Text
variable {T : Token → Token → Prop}

theorem itemsText_congr {items items' : List Value}
    (h : List.Forall₂ (fun v v' => v'.text = v.text) items items') :
    Value.itemsText items' = Value.itemsText items := by
  induction h with
  | nil => rfl
  | cons hv hr ih =>
    cases hr with
    | nil => simp only [Value.itemsText, hv]
    | cons hw hr => simp only [Value.itemsText, hv, ih]

/-- The text tells the kinds of tokens, and not where they stand. -/
theorem Value.Corresponds.text_eq (hT : ∀ {t t'}, T t t' → t'.kind = t.kind) {v v' : Value}
    (h : v.Corresponds T v') : v'.text = v.text := by
  induction v using Value.induction generalizing v' with
  | number x =>
    cases h
    rfl
  | sequence items ih =>
    cases h with
    | @sequence _ items' hi =>
      have htexts : List.Forall₂ (fun v v' => v'.text = v.text) items items' := by
        induction hi with
        | nil => exact .nil
        | cons hv _ ihr =>
          obtain ⟨ihv, ihvs⟩ := List.forall_mem_cons.1 ih
          exact .cons (ihv hv) (ihr ihvs)
      rw [Value.text, Value.text, itemsText_congr htexts]
  | quotation body =>
    cases h with
    | quotation hb =>
      simp only [Value.text]
      congr 2
      induction hb with
      | nil => rfl
      | cons ht _ ih => rw [List.flatMap_cons, List.flatMap_cons, ih, Token.text, Token.text, hT ht]
  | reference name =>
    cases h
    rfl

end Text

namespace Simulation.Simulates

open Eval

variable {m : Simulation} {α β : Type} {Q : α → β → Prop} {v v' : Value}

theorem onStack {op : Stack.Op α} {op' : Stack.Op β} (ho : OpSimulates m.token Q op op') :
    m.Simulates Q (Eval.onStack op) (Eval.onStack op') := by
  intro s s' h
  have hm := ho _ _ h.stack
  rw [Eval.onStack, Eval.onStack]
  generalize op s.stack = r at hm
  generalize op' s'.stack = r' at hm
  cases hm with
  | ok ha ht => exact .ok ha { h with stack := ht }
  | error ht => exact .error (.refl m _) { h with stack := ht }

theorem push (hv : v.Corresponds m.token v') : m.Simulates Eq (Eval.push v) (Eval.push v') :=
  fun _ _ h => .ok rfl { h with stack := h.stack.pushed hv }

theorem binary (f : Float → Float → Float) : m.Simulates Eq (Eval.binary f) (Eval.binary f) := by
  refine bind (onStack .popNumbers) ?_
  rintro ⟨a, b⟩ _ rfl
  exact push (.number _)

theorem binaryNonzero (f : Float → Float → Float) :
    m.Simulates Eq (Eval.binaryNonzero f) (Eval.binaryNonzero f) := by
  refine bind (onStack .popNumbers) ?_
  rintro ⟨a, b⟩ _ rfl
  simp only
  split
  · exact fail _
  · exact push (.number _)

theorem define : m.Simulates Eq Eval.define Eval.define := by
  refine bind (Q := fun operands operands' => operands'.1 = operands.1 ∧
    List.Forall₂ m.token operands.2 operands'.2) (onStack ?_) ?_
  · exact .bind (.require 2) fun _ _ _ => .bind .popQuotation fun _ _ hb =>
      .bind .popReference fun _ _ hn => .pure ⟨hn.symm, hb⟩
  · rintro ⟨name, body⟩ ⟨name', body'⟩ ⟨hn, hb⟩ s s' h
    obtain rfl : name' = name := hn
    exact .ok rfl { h with dictionary := m.define h.dictionary hb name' }

/-- What one dictionary lacks the other one lacks too. -/
theorem addAlias_error {d d' : Dictionary} (hd : m.dictionary d d') {name source : String}
    {kind : ErrorKind} (h : d.addAlias name source = .error kind) :
    d'.addAlias name source = .error kind := by
  have hl := m.lookup hd source
  rw [Dictionary.addAlias] at h ⊢
  cases hs : d.lookup? source with
  | none =>
    rw [hs] at h hl
    generalize d'.lookup? source = found at hl ⊢
    cases hl
    exact h
  | some definition =>
    rw [hs] at h
    simp only at h
    split at h <;> cases h

theorem addAlias : m.Simulates Eq Eval.addAlias Eval.addAlias := by
  refine bind (Q := Eq) (onStack ?_) ?_
  · refine .bind (.require 2) fun _ _ _ => .bind .popReference fun source _ hs =>
      .bind .popReference fun name _ hn => ?_
    subst hs hn
    exact .pure rfl
  · rintro ⟨name, source⟩ _ rfl s s' h
    simp only [get_bind_apply]
    cases ha : s.dictionary.addAlias name source with
    | ok e =>
      obtain ⟨e', ha', he⟩ := m.addAlias h.dictionary ha
      rw [ha']
      exact .ok rfl { h with dictionary := he }
    | error kind =>
      rw [addAlias_error h.dictionary ha]
      exact .error (.refl m _) h

theorem length : m.Simulates Eq Eval.length Eval.length := by
  refine bind (onStack .popSequence) fun items items' hi => ?_
  rw [hi.length_eq]
  exact push (.number _)

theorem total_eq {items items' : List Value}
    (h : List.Forall₂ (Value.Corresponds m.token) items items') (start : Float) :
    Eval.total start items' = Eval.total start items := by
  induction h generalizing start with
  | nil => rfl
  | cons hv _ ih =>
    rw [Eval.total, Eval.total, hv.number?_eq, hv.typeName_eq]
    split
    · exact ih _
    · rfl

theorem sum : m.Simulates Eq Eval.sum Eval.sum := by
  refine bind (onStack .popSequence) fun items items' hi => ?_
  rw [total_eq hi]
  cases Eval.total 0 items with
  | ok value => exact push (.number value)
  | error kind => exact fail kind

theorem draw : m.Simulates Eq Eval.draw Eval.draw := by
  intro s s' h
  have he := h.enclosing
  generalize hs : s.enclosing = ss at he
  generalize hs' : s'.enclosing = ss' at he
  cases he with
  | nil =>
    rw [draw_outside hs, draw_outside hs']
    exact .ok rfl h
  | @cons outer outer' _ _ ho hr =>
    have hm := OpSimulates.pop outer outer' ho
    simp only [Eval.draw, hs, hs']
    generalize Stack.pop outer = r at hm
    generalize Stack.pop outer' = r' at hm
    cases hm with
    | ok hv ht => exact push hv _ _ { h with enclosing := .cons ht hr }
    | error ht => exact .error (.refl m _) { h with enclosing := .cons ht hr }

theorem readNumber : m.Simulates Eq Eval.readNumber Eval.readNumber := by
  intro s s' h
  simp only [Eval.readNumber, get_bind_apply, h.input]
  cases s.input.isEmpty with
  | true => exact .error (.refl m _) h
  | false =>
    simp only [Bool.false_eq_true, if_false, modify_bind_apply]
    cases lineNumber? (Input.splitLine s.input).1 with
    | ok value =>
      exact .ok rfl { h with input := rfl, stack := h.stack.pushed (.number value) }
    | error kind => exact .error (.refl m _) { h with input := rfl }

theorem print : m.Simulates Eq Eval.print Eval.print := by
  refine bind (onStack .pop) fun v v' hv s s' h => ?_
  have hrender : v'.render = v.render := by
    rw [Value.render, Value.render, hv.text_eq m.kind_eq]
  rw [hrender, h.output]
  cases Output.writeLine v.render s.output with
  | ok _ output => exact .ok rfl { h with output := rfl }
  | error fault output => exact .error (.refl m _) { h with output := rfl }

end Simulation.Simulates

end StackCalc
