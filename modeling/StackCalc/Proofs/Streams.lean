import StackCalc.Proofs.Moments.Evaluation
import StackCalc.Proofs.Output
import StackCalc.Repl

/-!
What an evaluation does to the streams of its session. Only `print` writes to the output, one line
at a time, and only `stdin` takes anything from the input.
-/
namespace StackCalc

open Eval

namespace Output

/-- The stream takes and keeps whatever is written to it. -/
structure Accepts (out : Output) : Prop where
  capacity : out.capacity = none
  refusesFlush : out.refusesFlush = false
  discards : out.discards = false

theorem accepts_empty : ({} : Output).Accepts := ⟨rfl, rfl, rfl⟩

namespace Accepts
variable {out : Output}

theorem after (h : out.Accepts) (content : List UInt8) : (out.after content).Accepts :=
  ⟨h.capacity, h.refusesFlush, h.discards⟩

theorem write (h : out.Accepts) (text : String) :
    Output.write text out = .ok () (out.after (bytes text)) := by
  simp only [Output.write, h.discards, h.capacity, Bool.false_eq_true, if_false, Output.after]

theorem writeLine (h : out.Accepts) (text : String) :
    Output.writeLine text out = .ok () (out.after (bytes (text ++ "\n"))) := by
  rw [Output.writeLine, bind_of_ok (h.write _)]
  simp only [flush, (h.after _).refusesFlush, Bool.false_eq_true, if_false]

end Accepts

end Output

/-- What the host itself writes to a stream that takes it. -/
theorem Repl.tell_of_accepts {s : Session} (h : s.output.Accepts) (text : String) :
    tell text s = { s with output := s.output.after (Output.bytes text) } := by
  rw [tell, h.write]

section Print
variable {s : Session} {value : Value} {rest : List Value}

/-- Without a value the word fails, and has printed nothing. -/
theorem Eval.print_of_nil (h : s.stack.values = []) :
    Eval.print s = .error { kind := .stackUnderflow 1 0 } s := by
  have hpop : onStack Stack.pop s = .error { kind := .stackUnderflow 1 0 } s := by
    rw [onStack, Stack.pop_of_nil h]
  exact bind_of_error hpop

/-- The value is off the stack, also where the line does not go in. -/
theorem Eval.print_of_cons (h : s.stack.values = value :: rest) :
    Eval.print s =
      match Output.writeLine value.render s.output with
      | .ok () output => .ok () { s with stack := s.stack.dropped 1, output }
      | .error fault output =>
        .error { kind := .io fault } { s with stack := s.stack.dropped 1, output } := by
  have hpop : onStack Stack.pop s = .ok value { s with stack := s.stack.dropped 1 } :=
    onStack_eq_ok.2 ⟨_, Stack.pop_eq_ok.2 ⟨rest, h, rfl⟩, rfl⟩
  exact bind_of_ok hpop

end Print

namespace Moment

/-- The next step invokes the primitive, under whatever name it is bound to. -/
def Invokes (operation : Primitive) (m : Moment) : Prop :=
  ∃ name, m.task = .execute name ∧
    m.session.dictionary.lookup? name = some (.primitive operation)

/-- What the next step prints: where `print` is invoked on a value, a line with the value. -/
def line (m : Moment) : List UInt8 :=
  match m.task with
  | .execute name =>
    match m.session.dictionary.lookup? name, m.session.stack.top? with
    | some (.primitive .print), some value => Output.bytes (value.render ++ "\n")
    | _, _ => []
  | _ => []

/-- The steps from the one moment to the other print the text. -/
inductive Prints : Moment → List UInt8 → Moment → Prop where
  | none (m : Moment) : Prints m [] m
  | step {m n o : Moment} {text : List UInt8} : m.step = some n → Prints n text o →
      Prints m (m.line ++ text) o

theorem Leads.prints {m n : Moment} (h : m.Leads n) : ∃ text, Prints m text n := by
  induction h using Relation.ReflTransGen.head_induction_on with
  | refl => exact ⟨[], .none n⟩
  | head hs _ ih =>
    obtain ⟨text, ht⟩ := ih
    exact ⟨_, .step hs ht⟩

section Steps
variable {m n : Moment}

/-- A step leaves the input alone unless it reads a line, and the output unless it prints one. -/
theorem Advance.streams (h : Advance m n) :
    (¬ m.Invokes .readNumber → n.session.input = m.session.input) ∧
      (¬ m.Invokes .print → n.session.output = m.session.output) := by
  have haccept (low base : Nat) (s : Session) :
      s.Beside False False (finalState (accept low base s)) :=
    (Plain.accept low base).beside s
  -- only primitives touch the streams, and of these only the two that read and print
  cases h with
  | @primitive name operation sequel frames s t hl hs =>
    have hb := (Plain.start operation).beside s
    rw [hs] at hb
    exact ⟨fun hn => hb.input fun ho => hn ⟨name, rfl, ho ▸ hl⟩,
      fun hn => hb.output fun ho => hn ⟨name, rfl, ho ▸ hl⟩⟩
  | @failed name operation error frames s t hl hs =>
    have hb := (Plain.start operation).beside s
    rw [hs] at hb
    exact ⟨fun hn => hb.input fun ho => hn ⟨name, rfl, ho ▸ hl⟩,
      fun hn => hb.output fun ho => hn ⟨name, rfl, ho ▸ hl⟩⟩
  | @accepted outer item result loop frames s t ha =>
    have hb := haccept s.stack.mark loop.base (watchLeft outer s)
    rw [ha] at hb
    exact ⟨fun _ => hb.input id, fun _ => hb.output id⟩
  | @rejected outer item loop error frames s t ha =>
    have hb := haccept s.stack.mark loop.base (watchLeft outer s)
    rw [ha] at hb
    exact ⟨fun _ => hb.input id, fun _ => hb.output id⟩
  | @offered frame body base harvest item items frames s =>
    cases harvest <;> exact ⟨fun _ => rfl, fun _ => rfl⟩
  | @unwound error frame frames s =>
    cases frame <;> exact ⟨fun _ => rfl, fun _ => rfl⟩
  | _ => exact ⟨fun _ => rfl, fun _ => rfl⟩

theorem line_of_not_invokes (h : ¬ m.Invokes .print) : m.line = [] := by
  obtain ⟨task, frames, s⟩ := m
  cases task with
  | execute name =>
    rw [line]
    simp only
    split
    next hl _ => exact absurd ⟨name, rfl, hl⟩ h
    next => rfl
  | _ => rfl

theorem output_of_print {name : String} {frames : List Frame} {s : Session}
    (hl : s.dictionary.lookup? name = some (.primitive .print)) (ho : s.output.Accepts) :
    (finalState (start .print s)).output = s.output.after (line ⟨.execute name, frames, s⟩) := by
  have hprint : finalState (start .print s) = finalState (Eval.print s) :=
    (finalState_bind_of_keeps fun _ _ => rfl).trans (finalState_bind_of_keeps fun _ _ => rfl)
  rw [hprint]
  cases hv : s.stack.values with
  | nil =>
    have hline : line ⟨.execute name, frames, s⟩ = [] := by
      simp only [line, hl, Stack.top?, hv, List.head?_nil]
    rw [print_of_nil hv, hline, Output.after_nil]
    rfl
  | cons value rest =>
    have hline : line ⟨.execute name, frames, s⟩ = Output.bytes (value.render ++ "\n") := by
      simp only [line, hl, Stack.top?, hv, List.head?_cons]
    rw [print_of_cons hv, ho.writeLine, hline]
    rfl

/-- The output grows by what the step prints. -/
theorem Advance.output (h : Advance m n) (ho : m.session.output.Accepts) :
    n.session.output = m.session.output.after m.line := by
  by_cases hp : m.Invokes .print
  · -- of the steps that execute a word, those of a primitive are left
    obtain ⟨name, htask, hl⟩ := hp
    obtain ⟨task, frames, s⟩ := m
    cases htask
    cases h with
    | unknown hl' => cases hl'.symm.trans hl
    | user hl' => cases hl'.symm.trans hl
    | primitive hl' hs =>
      cases hl'.symm.trans hl
      rw [← output_of_print hl ho, hs]
      rfl
    | failed hl' hs =>
      cases hl'.symm.trans hl
      rw [← output_of_print hl ho, hs]
      rfl
  · rw [line_of_not_invokes hp, Output.after_nil]
    exact h.streams.2 hp

end Steps

theorem Prints.output {m n : Moment} {text : List UInt8} (h : Prints m text n)
    (ho : m.session.output.Accepts) : n.session.output = m.session.output.after text := by
  induction h with
  | none m => exact (Output.after_nil _).symm
  | step hs _ ih =>
    have hstep := (advance_of_step hs).output ho
    rw [ih (hstep ▸ ho.after _), hstep, Output.after_after]

theorem Prints.leads {m n : Moment} {text : List UInt8} (h : Prints m text n) : m.Leads n := by
  induction h with
  | none m => exact .refl
  | step hs _ ih => exact .cons hs ih

/-- As long as nothing is read the input stays as it is. -/
theorem Leads.input {start m : Moment} (h : start.Leads m)
    (hr : ∀ n, start.Leads n → ¬ n.Invokes .readNumber) :
    m.session.input = start.session.input :=
  h.preserves (P := fun m => m.session.input = start.session.input) rfl fun hm hadvance hi =>
    (hadvance.streams.1 (hr _ hm)).trans hi

/-- An evaluation has one end only. -/
theorem Leads.end_unique {start m n : Moment} (hm : start.Leads m) (hn : start.Leads n)
    (hme : m.step = none) (hne : n.step = none) : m = n := by
  have hstuck {m n : Moment} (h : m.Leads n) (he : m.step = none) : m = n := by
    rcases Relation.ReflTransGen.cases_head h with rfl | ⟨o, ho, -⟩
    · rfl
    · rw [he] at ho
      cases ho
  rcases hm.total hn with h | h
  · exact hstuck h hme
  · exact (hstuck h hne).symm

end Moment

namespace Eval

open Moment

section Load
variable {source : String} {s : Session} {text : List UInt8}

/-- In the session `s` the programs of the source text print the text. A source text without tokens
prints nothing. -/
inductive LoadPrints (source : String) (s : Session) : List UInt8 → Prop where
  | fault {fault : ParseFault} : tokenize source = .error fault → LoadPrints source s []
  | tokens {tokens : List Token} {text : List UInt8} {m : Moment} :
      tokenize source = .ok tokens → (outset tokens s).Prints text m → m.step = none →
      LoadPrints source s text

/-- In the session `s` the evaluation of the source text comes to a word that reads from the input.
-/
def LoadReads (source : String) (s : Session) : Prop :=
  ∃ tokens m, tokenize source = .ok tokens ∧ (outset tokens s).Leads m ∧ m.Invokes .readNumber

theorem step_ended (r : EStateM.Result EvalError Session Unit) : (ended [] r).step = none := by
  cases r <;> rfl

theorem session_ended (frames : List Frame) (r : EStateM.Result EvalError Session Unit) :
    (ended frames r).session = finalState r := by
  cases r <;> rfl

theorem exists_loadPrints (source : String) (s : Session) :
    ∃ text, LoadPrints source s text := by
  cases ht : tokenize source with
  | error fault => exact ⟨[], .fault ht⟩
  | ok tokens =>
    obtain ⟨text, hprints⟩ := (leads_load ht s).prints
    exact ⟨text, .tokens ht hprints (step_ended _)⟩

/-- Nothing but what the programs print comes to the output. -/
theorem output_load (h : LoadPrints source s text) (ho : s.output.Accepts) :
    (finalState (load source s)).output = s.output.after text := by
  cases h with
  | fault ht =>
    rw [load_of_fault ht, Output.after_nil]
    rfl
  | tokens ht hprints hend =>
    rw [← session_ended [], ← hprints.leads.end_unique (leads_load ht s) hend (step_ended _)]
    exact hprints.output ho

theorem input_load (h : ¬ LoadReads source s) :
    (finalState (load source s)).input = s.input := by
  cases ht : tokenize source with
  | error fault =>
    rw [load_of_fault ht]
    rfl
  | ok tokens =>
    rw [← session_ended []]
    exact (leads_load ht s).input fun m hm hi => h ⟨tokens, m, ht, hm, hi⟩

theorem settings_load (source : String) (s : Session) :
    (finalState (load source s)).settings = s.settings := by
  cases ht : tokenize source with
  | error fault =>
    rw [load_of_fault ht]
    rfl
  | ok tokens =>
    rw [← session_ended []]
    exact (leads_load ht s).level.settings

end Load

end Eval

end StackCalc
