import StackCalc.Proofs.Log.Loops
import StackCalc.Proofs.Log.Words

/-!
The logs of the combinators and of the evaluator are sound. Bodies run at any depth, so the proof is
by induction on the room that is left for calls.
-/
namespace StackCalc

open Eval

namespace Log

/-- A loop that leaves the stack as it was touches only what it puts there itself. -/
theorem Steady.kept {α : Type} {x : Eval α} {base : Nat} {log : Log x} (h : Steady base log)
    {s t : Session} {a : α} (hr : x s = .ok a t) (hs : s.stack.height = base)
    (hm : s.stack.mark ≤ s.stack.height) :
    Stack.Kept (touchedAt s.enclosing.length (log s)) s.stack t.stack := by
  obtain ⟨ht, hi⟩ := h.keeps hr hs (hs ▸ hm)
  rw [ht]
  refine ⟨?_, hm, fun _ _ => rfl⟩
  apply Nat.le_antisymm
  · rw [Stack.le_foldl_min]
    exact ⟨Nat.le_refl _, fun i hmem => Nat.le_trans (hs ▸ hm) (hi i hmem)⟩
  · exact Stack.foldl_min_le _ _

namespace Sound

section Loops
variable {α β : Type} {f : Nat → Eval α} {log : ∀ base, Log (f base)}

/-- A computation that depends on the height of the stack. -/
theorem atHeight (ha : ∀ base, Accounts (log base))
    (hk : ∀ {s t : Session} {a : α}, f s.stack.height s = .ok a t →
      s.stack.mark ≤ s.stack.height →
        Stack.Kept (touchedAt s.enclosing.length (log s.stack.height s)) s.stack t.stack) :
    Sound (Log.bind (Log.silent : Log height) log) :=
  ⟨fun s => ha s.stack.height s, hk⟩

theorem loop (h : ∀ base, Steady base (log base)) :
    Sound (Log.bind (Log.silent : Log height) log) :=
  atHeight (fun base => (h base).accounts) fun hr hm => (h _).kept hr rfl hm

theorem loopBind {g : Nat → α → Eval β} {next : ∀ base a, Log (g base a)}
    (h : ∀ base, Steady base (log base)) (hn : ∀ base a, Sound (next base a)) :
    Sound (Log.bind (Log.silent : Log height) fun base => Log.bind (log base) (next base)) := by
  refine atHeight (fun base => (h base).accounts.bind fun a => (hn base a).accounts) ?_
  intro s u b hr hm
  obtain ⟨a, t, ht, hu⟩ := bind_eq_ok.1 hr
  have hl : t.enclosing.length = s.enclosing.length :=
    ((h _).accounts.ok ht).enclosing.length_eq
  have hk := (h _).kept ht rfl hm
  have hk' := (hn _ a).keeps hu hk.mark_le
  rw [hl] at hk'
  rw [bind_of_ok ht, touchedAt_append]
  exact hk.trans hk'

end Loops

section Combinators
variable {call : Caller} {log : CallLog call} (hc : ∀ frame body, Sound (log frame body))
  {frame : String}
include hc

theorem map : Sound (map log frame) := by
  refine noteBind (by decide) (.onStack ?_) ?_
  · exact .popSequenceBody
  rintro ⟨items, body⟩
  exact loopBind (fun base => .mapM (.mapStep (hc frame body)) items) fun _ _ => silent (.push _)

theorem reduce (body : List Token) (first : Value) (items : List Value) :
    Sound (reduce log frame body first items) :=
  loop fun _ => .foldlM (.reduceStep (hc frame body)) items first

theorem fold : Sound (fold log frame) := by
  refine noteBind (by decide) (.onStack ?_) ?_
  · exact .popSequenceStartBody
  rintro ⟨items, start, body⟩
  exact bind (reduce hc body start items) fun _ => silent (.push _)

theorem fold1 : Sound (fold1 log frame) := by
  refine noteBind (by decide) (.onStack ?_) ?_
  · exact .popSequenceBody
  rintro ⟨items, body⟩
  cases items with
  | nil => exact silent (.fail _)
  | cons first rest => exact bind (reduce hc body first rest) fun _ => silent (.push _)

theorem filter : Sound (filter log frame) := by
  refine noteBind (by decide) (.onStack ?_) ?_
  · exact .popSequenceBody
  rintro ⟨items, body⟩
  exact loopBind (fun base => .mapM (.filterStep (hc frame body)) items) fun _ _ => silent (.push _)

theorem iterate : Sound (iterate log frame) := by
  refine noteBind (by decide) (.onStack ?_) ?_
  · exact .bind (.require 2) fun _ => .bind .popCount fun _ => .bind .popQuotation fun _ => .pure _
  rintro ⟨count, body⟩
  exact times (hc frame body) count

theorem choose : Sound (choose log frame) := by
  refine noteBind (by decide) (.onStack ?_) ?_
  · exact .bind (.require 3) fun _ => .bind .pop fun _ => .bind .pop fun _ =>
      .bind .popNumber fun _ => .pure _
  rintro ⟨condition, whenTrue, whenFalse⟩
  simp only
  cases if condition != 0 then whenTrue else whenFalse with
  | quotation body => exact hc frame body
  | _ => exact silent (.push _)

theorem apply : Sound (apply log frame) := by
  refine noteBind (by decide) (.onStack ?_) ?_
  · exact .pop
  intro value
  cases value with
  | quotation body => exact only (hc frame body)
  | reference name => exact silent (.pure _)
  | _ => exact silent (.fail _)

theorem invoke (operation : Primitive) : Sound (invoke log operation) := by
  cases operation with
  | add | subtract | multiply | power | logarithm | larger | smaller | compare =>
    exact note nofun (.only (.binary _))
  | divide | remainder => exact note nofun (.only (.binaryNonzero _))
  | copy | copySecond => exact note nofun (.only (.copyFromTop _))
  | swap | rotate3 => exact note nofun (.only (.rotate (by decide)))
  | drop => exact note nofun (.only ((Still.onStack .pop).bind fun _ => .pure _))
  | define => exact note nofun (.only .define)
  | addAlias => exact note nofun (.only .addAlias)
  | map => exact only (map hc)
  | fold => exact only (fold hc)
  | fold1 => exact only (fold1 hc)
  | filter => exact only (filter hc)
  | iterate => exact only (iterate hc)
  | choose => exact only (choose hc)
  | apply => exact apply hc
  | length => exact note nofun (.only .length)
  | sum => exact note nofun (.only .sum)
  | draw => exact draw
  | readNumber => exact note nofun (.only .readNumber)
  | print => exact note nofun (.only .print)

/-- Executing a word reference that was applied leaves a smaller stack, so the induction is on the
height of the stack. -/
theorem execute_accounts (name : String) (s : Session) :
    Accounted s (executeFrom log name s) (finalState (Eval.execute call name s)) := by
  cases hl : s.dictionary.lookup? name with
  | none =>
    rw [execute_unknown hl, executeFrom_unknown log hl]
    exact .refl s
  | some definition =>
    cases definition with
    | user body =>
      rw [execute_user hl, executeFrom_user log hl]
      exact (hc name body).accounts s
    | primitive operation =>
      have ha := (invoke hc operation).accounts s
      cases hi : Eval.invoke call operation s with
      | error error t =>
        rw [execute_primitive_error hl hi, executeFrom_last log hl (by simp [hi])]
        rw [hi] at ha
        exact ha
      | ok next t =>
        rw [hi] at ha
        cases next with
        | none =>
          rw [execute_primitive_ok hl hi, executeFrom_last log hl (by simp [hi])]
          exact ha
        | some next =>
          have hlt := height_lt_of_invoke hi
          rw [execute_primitive_next hl hi, finalState_nameWord, executeFrom_next log hl hi]
          exact Accounted.trans ha (execute_accounts next t)
termination_by s.stack.height

theorem execute_keeps (name : String) {s t : Session} {a : Unit}
    (h : Eval.execute call name s = .ok a t) (hs : s.stack.mark ≤ s.stack.height) :
    Stack.Kept (touchedAt s.enclosing.length (executeFrom log name s)) s.stack t.stack := by
  cases hl : s.dictionary.lookup? name with
  | none =>
    rw [execute_unknown hl] at h
    cases h
  | some definition =>
    cases definition with
    | user body =>
      rw [execute_user hl] at h
      rw [executeFrom_user log hl]
      exact (hc name body).keeps h hs
    | primitive operation =>
      cases hi : Eval.invoke call operation s with
      | error error t =>
        rw [execute_primitive_error hl hi] at h
        cases h
      | ok next u =>
        have hk := (invoke hc operation).keeps hi hs
        cases next with
        | none =>
          rw [execute_primitive_ok hl hi] at h
          cases h
          rw [executeFrom_last log hl (by simp [hi])]
          exact hk
        | some next =>
          have hlt := height_lt_of_invoke hi
          have hlen : u.enclosing.length = s.enclosing.length :=
            ((invoke hc operation).accounts.ok hi).enclosing.length_eq
          rw [execute_primitive_next hl hi] at h
          cases hn : Eval.execute call next u with
          | error error v =>
            rw [hn] at h
            cases h
          | ok _ v =>
            rw [hn] at h
            cases h
            have hk' := execute_keeps next hn hk.mark_le
            rw [hlen] at hk'
            rw [executeFrom_next log hl hi, touchedAt_append]
            exact hk.trans hk'
termination_by s.stack.height

theorem execute (name : String) : Sound (execute log name) :=
  ⟨execute_accounts hc name, execute_keeps hc name⟩

/-- By induction on the number of tokens; the body of an array scope runs on a level of its own. -/
theorem run (tokens : List Token) : Sound (run log tokens) := by
  cases tokens with
  | nil =>
    rw [Log.run]
    exact (silent (.pure ())).of_eq (run_nil call).symm
  | cons token rest =>
    obtain ⟨kind, position⟩ := token
    cases kind with
    | number value =>
      have h := bind (silent (.push (.number value))) fun _ => run rest
      rw [Log.run]
      exact h.of_eq (run_number ..).symm
    | quoted name =>
      have h := bind (silent (.push (.reference name))) fun _ => run rest
      rw [Log.run]
      exact h.of_eq (run_quoted ..).symm
    | word name =>
      have h := bind (execute hc name) fun _ => run rest
      rw [Log.run]
      exact h.of_eq (run_word ..).symm
    | closer bracket =>
      rw [Log.run]
      exact (silent (.fail _)).of_eq (run_closer ..).symm
    | opener bracket =>
      cases hsplit : Token.splitAtCloser 0 rest with
      | none =>
        rw [Log.run_unclosed log bracket position hsplit]
        exact (silent (.fail _)).of_eq (Eval.run_unclosed call bracket position hsplit).symm
      | some parts =>
        obtain ⟨body, after⟩ := parts
        have hlen := Token.length_of_splitAtCloser hsplit
        have h := bind (enclosed bracket body (run body)) fun _ => run after
        rw [Log.run_opener log bracket position hsplit]
        exact h.of_eq (Eval.run_opener call bracket position hsplit).symm
termination_by tokens.length
decreasing_by
  all_goals simp only [List.length_cons]
  all_goals omega

end Combinators

theorem callWithin (room : Nat) (frame : String) (body : List Token) :
    Sound (callWithin room frame body) := by
  induction room generalizing frame body with
  | zero => exact silent ⟨fun s => .refl s, nofun⟩
  | succ room ih => exact inFrame (run ih body) frame

theorem evaluate (tokens : List Token) : Sound (evaluate tokens) :=
  ⟨fun s => (run (callWithin s.room) tokens).accounts s,
    fun {s _ _} => (run (callWithin s.room) tokens).keeps⟩

end Sound

end Log

/-- An evaluation comes back to the depth that it started from, also when it fails. -/
theorem depth_evaluate (tokens : List Token) (s : Session) :
    (finalState (evaluate tokens s)).depth = s.depth :=
  ((Log.Sound.evaluate tokens).accounts s).depth

end StackCalc
