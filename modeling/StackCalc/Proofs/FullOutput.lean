import StackCalc.Proofs.Activations
import StackCalc.Proofs.Diagnostics
import StackCalc.Proofs.Redirection

/-!
An output that becomes full cuts a run off. Up to the line that does not go in any more the run is
the one with an output that takes everything, and at this line it fails.
-/
namespace StackCalc

open Eval Moment

/-! Streams with so much room. -/

namespace Output

/-- The stream, if from now on it takes `room` bytes in all. -/
def limited (room : Nat) (out : Output) : Output :=
  { out with capacity := some (out.written.size + room) }

theorem write_of_capacity {out : Output} {limit : Nat} (hd : out.discards = false)
    (hc : out.capacity = some limit) (text : String) :
    write text out =
      if (bytes text).length ≤ limit - out.written.size then .ok () (out.after (bytes text))
      else .error .outputFull (out.after ((bytes text).take (limit - out.written.size))) := by
  simp only [write, after, hd, hc, Bool.false_eq_true, if_false]

namespace Accepts
variable {out : Output} {room : Nat} {before : List UInt8} {text : String}

/-- What is written is what there is room for. -/
theorem write_limited (h : out.Accepts) (room : Nat) (before : List UInt8) (text : String) :
    Output.write text ((out.limited room).after before) =
      if (bytes text).length ≤ room - before.length then
        .ok () ((out.limited room).after (before ++ bytes text))
      else
        .error .outputFull
          ((out.limited room).after (before ++ (bytes text).take (room - before.length))) := by
  have hsize : ((out.limited room).after before).written.size =
      out.written.size + before.length := by
    simp only [Output.after, limited, ← Array.length_toList, Array.toList_appendList,
      List.length_append]
  have hroom : out.written.size + room - ((out.limited room).after before).written.size =
      room - before.length := by
    omega
  have hdiscards : ((out.limited room).after before).discards = false := h.discards
  have hcapacity : ((out.limited room).after before).capacity = some (out.written.size + room) :=
    rfl
  rw [write_of_capacity hdiscards hcapacity, hroom, after_after, after_after]

theorem writeLine_fits (h : out.Accepts)
    (hfit : before.length + (bytes (text ++ "\n")).length ≤ room) :
    Output.writeLine text ((out.limited room).after before) =
      .ok () ((out.limited room).after (before ++ bytes (text ++ "\n"))) := by
  have hwrite := h.write_limited room before (text ++ "\n")
  rw [if_pos (by omega)] at hwrite
  have hflush : flush ((out.limited room).after (before ++ bytes (text ++ "\n"))) =
      .ok () ((out.limited room).after (before ++ bytes (text ++ "\n"))) := by
    rw [flush, if_neg]
    exact Bool.eq_false_iff.1 h.refusesFlush
  exact (bind_of_ok hwrite).trans hflush

/-- Of a line that does not fit, the bytes that do are written. -/
theorem writeLine_full (h : out.Accepts) (hbefore : before.length ≤ room)
    (hfull : room < before.length + (bytes (text ++ "\n")).length) :
    Output.writeLine text ((out.limited room).after before) =
      .error .outputFull
        ((out.limited room).after ((before ++ bytes (text ++ "\n")).take room)) := by
  have hwrite := h.write_limited room before (text ++ "\n")
  rw [if_neg (by omega)] at hwrite
  rw [List.take_append, List.take_of_length_le hbefore]
  exact bind_of_error hwrite

end Accepts

end Output

/-! Frames that an error leaves. -/

/-- The values of the current stack and of the stacks that scopes have set aside. -/
def Session.layers (s : Session) : List (List Value) :=
  s.stack.values :: s.enclosing.map (·.values)

/-- What is left of a session outside the frames. -/
structure Session.Restored (frames : List Frame) (s t : Session) : Prop where
  settings : t.settings = s.settings
  dictionary : t.dictionary = s.dictionary
  input : t.input = s.input
  output : t.output = s.output
  depth : t.depth = s.depth - (openCalls frames).length
  layers : frames.countP Frame.isScope ≤ s.enclosing.length →
    t.layers = s.layers.drop (frames.countP Frame.isScope)

theorem Session.layers_scopeLeft {s : Session} (h : 0 < s.enclosing.length) :
    (scopeLeft s).layers = s.layers.drop 1 := by
  rw [scopeLeft, layers, layers]
  cases he : s.enclosing with
  | nil =>
    rw [he] at h
    cases h
  | cons outer rest => rfl

theorem Session.Restored.cons {frame : Frame} {rest : List Frame} {s t : Session}
    (h : (frame.leave s).Restored rest t) : s.Restored (frame :: rest) t := by
  obtain ⟨hsettings, hdictionary, hinput, houtput, hdepth, hlayers⟩ := h
  cases frame with
  | call name =>
    have hcalls : (openCalls (.call name :: rest)).length = (openCalls rest).length + 1 := rfl
    refine ⟨hsettings, hdictionary, hinput, houtput, ?_, hlayers⟩
    rw [hdepth, hcalls, Nat.add_comm, ← Nat.sub_sub]
    rfl
  | scope =>
    refine ⟨hsettings, hdictionary, hinput, houtput, hdepth, fun hcount => ?_⟩
    have htail : (Frame.scope.leave s).enclosing.length = s.enclosing.length - 1 := List.length_tail
    rw [List.countP_cons_of_pos (p := Frame.isScope) rfl] at hcount ⊢
    rw [hlayers (by omega), Frame.leave, layers_scopeLeft (by omega), List.drop_drop, Nat.add_comm]
  | _ => exact ⟨hsettings, hdictionary, hinput, houtput, hdepth, hlayers⟩

theorem Session.restored_leave (frames : List Frame) (s : Session) :
    s.Restored frames (frames.foldl Frame.leave s) := by
  induction frames generalizing s with
  | nil => exact ⟨rfl, rfl, rfl, rfl, rfl, fun _ => rfl⟩
  | cons frame rest ih => exact .cons (ih _)

namespace Moment

theorem leads_unwound (error : EvalError) (frames : List Frame) (s : Session) :
    Leads ⟨.raise error, frames, s⟩
      ⟨.raise (noted frames error), [], frames.foldl Frame.leave s⟩ := by
  induction frames generalizing error s with
  | nil => exact .refl
  | cons frame rest ih => exact .cons rfl (ih _ _)

/-- As many stacks are set aside as scopes are open. -/
theorem Leads.length_enclosing {tokens : List Token} {s : Session} {m : Moment}
    (h : (outset tokens s).Leads m) :
    m.session.enclosing.length = s.enclosing.length + m.frames.countP Frame.isScope := by
  -- a step enters a scope with its frame and leaves it with its frame
  refine h.preserves (P := fun m : Moment => m.session.enclosing.length =
    s.enclosing.length + m.frames.countP Frame.isScope) rfl ?_
  -- a scope fewer
  have hleft {frames : List Frame} {t : Session}
      (ht : t.enclosing.length =
        s.enclosing.length + (Frame.scope :: frames).countP Frame.isScope) :
      t.enclosing.tail.length = s.enclosing.length + frames.countP Frame.isScope := by
    rw [List.countP_cons_of_pos (p := Frame.isScope) rfl] at ht
    rw [List.length_tail]
    omega
  rintro m n - hadvance hm
  cases hadvance with
  | @primitive name operation sequel frames t u hl hs =>
    have hstart := length_enclosing_start operation t
    rw [hs] at hstart
    exact hstart.trans hm
  | @failed name operation error frames t u hl hs =>
    have hstart := length_enclosing_start operation t
    rw [hs] at hstart
    exact hstart.trans hm
  | @accepted outer item result loop frames t u ha =>
    have haccept := (Blind.accept t.stack.mark loop.base).enclosing (watchLeft outer t)
    rw [ha] at haccept
    exact haccept.trans hm
  | @rejected outer item loop error frames t u ha =>
    have haccept := (Blind.accept t.stack.mark loop.base).enclosing (watchLeft outer t)
    rw [ha] at haccept
    exact haccept.trans hm
  | @offered frame body base harvest item items frames t => cases harvest <;> exact hm
  | @scope position rest body after frames t hsplit =>
    rw [List.countP_cons_of_pos (p := Frame.isScope) rfl]
    exact congrArg (· + 1) hm
  | built => exact hleft hm
  | @unwound error frame frames t =>
    cases frame with
    | scope => exact hleft hm
    | _ => exact hm
  | _ => exact hm

/-! Runs with so much room. -/

/-- What the step that prints comes to, according to what the stream does with the line. -/
theorem Writes.steps {value : Value} {m : Moment} (h : m.Writes value) :
    ∃ name rest, m.task = .execute name ∧
      m.session.dictionary.lookup? name = some (.primitive .print) ∧
      m.session.stack.values = value :: rest ∧
      ∀ out, (m.writingTo out).step = some
        (after .proceed (.primitive name .print :: m.frames)
          (match Output.writeLine value.render out with
            | .ok () out => .ok .finished (m.session.popped.writingTo out)
            | .error fault out =>
              .error { kind := .io fault } (m.session.popped.writingTo out))) := by
  obtain @⟨name, frames, s, rest, hl, hv⟩ := h
  refine ⟨name, rest, rfl, hl, hv, fun out => ?_⟩
  have hv' : (s.writingTo out).stack.values = value :: rest := hv
  have hl' : (s.writingTo out).dictionary.lookup? name = some (.primitive .print) := hl
  simp only [writingTo, step, executeStep, hl', start_print_of_cons hv']
  rfl

section Runs
variable {base : Output} {room : Nat} {m n : Moment} {before text : List UInt8}

/-- As long as there is room for what it prints, a step is the same. -/
theorem step_limited (hb : base.Accepts) (hs : m.step = some n)
    (ho : m.session.output = base.after before) (hfit : before.length + m.line.length ≤ room) :
    (m.writingTo ((base.limited room).after before)).step =
      some (n.writingTo ((base.limited room).after (before ++ m.line))) := by
  rcases m.writes_or_blind with ⟨value, hw⟩ | ⟨hline, hblind⟩
  · obtain ⟨name, rest, -, -, -, hsteps⟩ := hw.steps
    rw [hw.line] at hfit
    have hfree : m.step = (m.writingTo (base.after before)).step := by
      rw [← ho]
      rfl
    rw [hfree, hsteps, (hb.after before).writeLine] at hs
    obtain rfl := Option.some.inj hs
    rw [hsteps, hb.writeLine_fits hfit, hw.line]
    rfl
  · rw [hblind, hs, hline, List.append_nil]
    rfl

/-- As long as there is room for what is printed, the run is the same. -/
theorem Prints.limited (h : Prints m text n) (hb : base.Accepts)
    (ho : m.session.output = base.after before) (hfit : before.length + text.length ≤ room) :
    Leads (m.writingTo ((base.limited room).after before))
      (n.writingTo ((base.limited room).after (before ++ text))) := by
  induction h generalizing before with
  | none m =>
    rw [List.append_nil]
    exact .refl
  | @step m next n text hs _ ih =>
    rw [List.length_append] at hfit
    have hnext : next.session.output = base.after (before ++ m.line) := by
      rw [(advance_of_step hs).output (ho ▸ hb.after before), ho, Output.after_after]
    have hrest := ih hnext (by rw [List.length_append]; omega)
    rw [List.append_assoc] at hrest
    exact .cons (step_limited hb hs ho (by omega)) hrest

theorem Prints.limited_start (h : Prints m text n) (ho : m.session.output.Accepts)
    (hroom : text.length ≤ room) :
    Leads (m.writingTo (m.session.output.limited room))
      (n.writingTo ((m.session.output.limited room).after text)) := by
  have hnone : m.session.output = m.session.output.after [] := (Output.after_nil _).symm
  have hfit : ([] : List UInt8).length + text.length ≤ room := by
    rwa [List.length_nil, Nat.zero_add]
  have hleads := h.limited ho hnone hfit
  rwa [Output.after_nil, List.nil_append] at hleads

/-- If more is printed than there is room for, some step prints the first byte too many. -/
theorem Prints.exists_writes (h : Prints m text n) (hfull : room < text.length) :
    ∃ written o value further, Prints m written o ∧ o.Writes value ∧
      text = written ++ (o.line ++ further) ∧ written.length ≤ room ∧
      room < written.length + o.line.length := by
  -- over the run: the first line that does not fit into what the lines before have left
  induction h generalizing room with
  | none m => cases hfull
  | @step m next n text hs _ ih =>
    by_cases hfit : m.line.length ≤ room
    · rw [List.length_append] at hfull
      obtain ⟨written, o, value, further, hprints, hw, rfl, hle, hlt⟩ :=
        @ih (room - m.line.length) (by omega)
      refine ⟨m.line ++ written, o, value, further, .step hs hprints, hw, ?_, ?_, ?_⟩
      · rw [List.append_assoc]
      · rw [List.length_append]
        omega
      · rw [List.length_append]
        omega
    · rcases m.writes_or_blind with ⟨value, hw⟩ | ⟨hline, -⟩
      · refine ⟨[], m, value, text, .none m, hw, rfl, Nat.zero_le _, ?_⟩
        rw [List.length_nil]
        omega
      · rw [hline] at hfit
        exact absurd (Nat.zero_le _) hfit

end Runs

end Moment

theorem ended_injective {r r' : EStateM.Result EvalError Session Unit}
    (h : ended [] r = ended [] r') : r = r' := by
  cases r <;> cases r' <;> cases h <;> rfl

theorem ended_mapResult (r : EStateM.Result EvalError Session Unit) (out : Output) :
    ended [] (mapResult id (Session.writingTo out) r) = (ended [] r).writingTo out := by
  cases r <;> rfl

/-- The next step of a run that prints `text` to a stream that was `out` before is a `print`, under
whatever name, and its line is the first that does not fit into the room. -/
structure Moment.Overflows (m : Moment) (out : Output) (text : List UInt8) (room : Nat)
    (name : String) (value : Value) (rest : List Value) : Prop where
  task : m.task = .execute name
  meaning : m.session.dictionary.lookup? name = some (.primitive .print)
  values : m.session.stack.values = value :: rest
  line : ∃ written line, m.session.output = out.after written ∧
    line = Output.bytes (value.render ++ "\n") ∧ written ++ line <+: text ∧
    written.length ≤ room ∧ room < (written ++ line).length

/-- How a run fails with a full output at the moment `m`: the value is off the stack, and outside
the scopes that are open at `m` everything else is as it is there. -/
structure Moment.Overflowed (m : Moment) (name : String) (rest : List Value) (error : EvalError)
    (t : Session) : Prop where
  kind : error.kind = .io .outputFull
  word : error.word = some name
  trace : error.trace = openCalls m.frames
  dictionary : t.dictionary = m.session.dictionary
  input : t.input = m.session.input
  settings : t.settings = m.session.settings
  depth : t.depth = 0
  layers : t.layers =
    (rest :: m.session.enclosing.map (·.values)).drop (m.frames.countP Frame.isScope)

section Load
variable {s : Session} {source : String} {tokens : List Token} {text : List UInt8} {room : Nat}

/-- Where there is room for everything, the output is the only difference. -/
theorem load_of_room (ho : s.output.Accepts) (ht : tokenize source = .ok tokens)
    (hprints : (outset tokens s).Prints text (ended [] (load source s)))
    (hroom : text.length ≤ room) :
    load source (s.writingTo (s.output.limited room)) =
      mapResult id (Session.writingTo ((s.output.limited room).after text)) (load source s) := by
  have hleads := hprints.limited_start ho hroom
  rw [← ended_mapResult] at hleads
  exact ended_injective ((leads_load ht (s.writingTo (s.output.limited room))).end_unique hleads
    (step_ended _) (step_ended _))

/-- At the line for which there is no more room, the run fails, and the frames around it are left.
-/
theorem load_of_writes (ho : s.output.Accepts) (ht : tokenize source = .ok tokens)
    {written : List UInt8} {m : Moment} {value : Value}
    (hprints : (outset tokens s).Prints written m) (hw : m.Writes value)
    (hle : written.length ≤ room) (hlt : room < written.length + m.line.length) :
    ∃ name rest error t, m.task = .execute name ∧
      m.session.dictionary.lookup? name = some (.primitive .print) ∧
      m.session.stack.values = value :: rest ∧
      load source (s.writingTo (s.output.limited room)) = .error error t ∧
      t.output = (s.output.limited room).after ((written ++ m.line).take room) ∧
      m.Overflowed name rest error t := by
  obtain ⟨name, rest, htask, hl, hvalues, hsteps⟩ := hw.steps
  have hleads := hprints.limited_start ho hle
  have hstep := hsteps ((s.output.limited room).after written)
  rw [hw.line] at hlt ⊢
  rw [ho.writeLine_full hle hlt] at hstep
  have hraised := (hleads.trans (.of_step hstep)).trans (leads_unwound _ _ _)
  have hend := (leads_load ht (s.writingTo (s.output.limited room))).end_unique hraised
    (step_ended _) rfl
  -- the first frame to be left is that of the primitive
  have hblamed : (EvalError.atWord { kind := .io .outputFull } name).word = some name := rfl
  have hrestored := Session.restored_leave m.frames (m.session.popped.writingTo
    ((s.output.limited room).after
      ((written ++ Output.bytes (value.render ++ "\n")).take room)))
  have hlevel := hprints.leads.level
  have hscopes := hprints.leads.length_enclosing
  refine ⟨name, rest, _, _, htask, hl, hvalues, ended_injective hend, hrestored.output,
    kind_noted _ _, word_noted hblamed m.frames, trace_noted _ _, hrestored.dictionary,
    hrestored.input, hrestored.settings, ?_, ?_⟩
  · calc _ = m.session.depth - (openCalls m.frames).length := hrestored.depth
      _ = 0 := by rw [hlevel.depth, Nat.sub_self]
  · have hcount : m.frames.countP Frame.isScope ≤ m.session.enclosing.length := by omega
    have hpopped : m.session.popped.layers = rest :: m.session.enclosing.map (·.values) := by
      rw [Session.layers, Session.popped, Stack.values_dropped, hvalues, List.drop_succ_cons,
        List.drop_zero]
    rw [← hpopped]
    exact hrestored.layers hcount

end Load

/-- An output that becomes full cuts a run off at the exact byte. Let `text` be what a source prints
to a stream that takes everything. With room for that much the run is the same, and otherwise it
fails at the `print` whose line is the first not to go in. The stream has taken all the bytes that
there was room for; the value is off the stack, and the rest is as it is at that moment of the free
run, outside the scopes that are open then. -/
theorem load_cut_off {s : Session} (ho : s.output.Accepts) (source : String) (room : Nat) :
    ∃ text limited, limited = s.output.limited room ∧
      (finalState (load source s)).output = s.output.after text ∧
      (text.length ≤ room → load source (s.writingTo limited) =
        mapResult id (Session.writingTo (limited.after text)) (load source s)) ∧
      (room < text.length → ∃ tokens m name value rest error t,
        tokenize source = .ok tokens ∧ (outset tokens s).Leads m ∧
        m.Overflows s.output text room name value rest ∧
        load source (s.writingTo limited) = .error error t ∧
        t.output = limited.after (text.take room) ∧ m.Overflowed name rest error t) := by
  cases ht : tokenize source with
  | error fault =>
    -- nothing runs, and nothing is printed
    refine ⟨[], _, rfl, ?_, fun _ => ?_, fun hroom => absurd hroom (Nat.not_lt_zero _)⟩
    · rw [load_of_fault ht, Output.after_nil]
      rfl
    · rw [load_of_fault ht, load_of_fault ht, Output.after_nil]
      rfl
  | ok tokens =>
    obtain ⟨text, hprints⟩ := (leads_load ht s).prints
    refine ⟨text, _, rfl, ?_, load_of_room ho ht hprints, fun hfull => ?_⟩
    · rw [← session_ended [], hprints.output ho]
      rfl
    · obtain ⟨written, m, value, further, hm, hw, rfl, hle, hlt⟩ := hprints.exists_writes hfull
      obtain ⟨name, rest, error, t, htask, hl, hvalues, herror, houtput, hover⟩ :=
        load_of_writes ho ht hm hw hle hlt
      have hlong : room < (written ++ m.line).length := by
        rw [List.length_append]
        exact hlt
      have hprefix : written ++ m.line <+: written ++ (m.line ++ further) := by
        rw [← List.append_assoc]
        exact List.prefix_append _ _
      refine ⟨tokens, m, name, value, rest, error, t, rfl, hm.leads,
        ⟨htask, hl, hvalues, written, m.line, hm.output ho, hw.line, hprefix, hle, hlong⟩, herror,
        ?_, hover⟩
      rw [houtput, ← List.append_assoc, List.take_append_of_le_length (Nat.le_of_lt hlong)]

/-- Of a line with a reference, the first byte goes in. -/
theorem load_cut_off_reference :
    ∃ error t, load ",x print" (Session.bare.writingTo (.limited 1 {})) = .error error t ∧
      error.kind = .io .outputFull ∧ t.output = (Output.limited 1 {}).after (Output.bytes ",") := by
  obtain ⟨text, _, rfl, houtput, -, hcut⟩ :=
    load_cut_off (s := Session.bare.writingTo {}) Output.accepts_empty ",x print" 1
  have hwritten : (finalState (load ",x print" (Session.bare.writingTo {}))).output.written.toList =
      Output.bytes ",x\n" := by
    decide +kernel
  have htext : text = Output.bytes ",x\n" := by
    rw [houtput, Output.after, Array.toList_appendList] at hwritten
    exact hwritten
  have hlong : 1 < text.length := by
    rw [htext]
    decide
  obtain ⟨_, _, _, _, _, error, t, -, -, -, herror, ht, hover⟩ := hcut hlong
  refine ⟨error, t, herror, hover.kind, ht.trans ?_⟩
  rw [htext]
  rfl

end StackCalc
