import StackCalc.CommandLine
import StackCalc.Proofs.Commands
import StackCalc.Proofs.Concatenation

/-!
The conversation of the interactive loop. It goes from line to line with one session; each line that
is not blank prints what its programs print and is then replied to, and only a line that quits, or
the end of the input, ends it.
-/
namespace StackCalc

open Eval
open Moment (forall_of_end forall_of_step)

namespace Input

theorem lines_of_ne_nil {bytes : List UInt8} (h : bytes ≠ []) :
    lines bytes = (splitLine bytes).1 :: lines (splitLine bytes).2 := by
  rw [lines, dif_neg h]

/-- The lines are all of the input. -/
theorem flatten_lines (bytes : List UInt8) : (lines bytes).flatten = bytes := by
  fun_induction lines bytes with
  | case1 => rfl
  | case2 bytes _ ih => rw [List.flatten_cons, ih, splitLine_append]

/-- The lines that are left are the lines of what is left. -/
theorem lines_flatten_of_suffix {input : List UInt8} {rest : List (List UInt8)}
    (h : rest <:+ lines input) : lines rest.flatten = rest := by
  fun_induction lines input with
  | case1 =>
    obtain rfl := List.suffix_nil.1 h
    rw [List.flatten_nil, lines, dif_pos rfl]
  | case2 bytes hne ih =>
    rcases List.suffix_cons_iff.1 h with rfl | h
    · rw [← lines_of_ne_nil hne, flatten_lines]
    · exact ih h

end Input

namespace Repl

/-! What a line does. -/

/-- The source text that answering the line evaluates: the line itself unless it is a command, and
the text of the file that a load command names. -/
inductive Evaluates (read : FileReader) (line : String) : String → Prop where
  | line : line.toList.head? ≠ some ':' → Evaluates read line line
  | file {name path source : String} : IsCommand line name path → name ∈ ["load", "l"] →
      path ≠ "" → read.Holds path source → Evaluates read line source

/-- In the session `s` the programs of the line print the text. -/
inductive LinePrints (read : FileReader) (line : String) (s : Session) : List UInt8 → Prop where
  | source {source : String} {text : List UInt8} : Evaluates read line source →
      LoadPrints source s text → LinePrints read line s text
  | none : (∀ source, ¬ Evaluates read line source) → LinePrints read line s []

/-- In the session `s` a program of the line comes to a word that reads from the input. -/
def LineReads (read : FileReader) (line : String) (s : Session) : Prop :=
  ∃ source, Evaluates read line source ∧ LoadReads source s

section Line
variable {read : FileReader} {line name argument source reply : String} {s t : Session}
  {quits : Bool}

theorem finalState_evaluateLine (source : String) (s : Session) :
    finalState (evaluateLine source s) = finalState (load source s) := by
  cases hl : load source s with
  | error error t =>
    rw [evaluateLine_of_error hl]
    rfl
  | ok _ t =>
    rw [evaluateLine_of_ok hl]
    rfl

theorem not_evaluates (hc : IsCommand line name argument)
    (h : name ∈ ["load", "l"] → argument ≠ "" → ∀ source, ¬ read.Holds argument source) :
    ∀ source, ¬ Evaluates read line source := by
  intro source he
  cases he with
  | line hsource => exact hsource hc.head?
  | file hc' hname hne hread =>
    obtain ⟨rfl, rfl⟩ := hc.unique hc'
    exact h hname hne source hread

/-- All that a line does to a session is done by its program, if it has one. -/
theorem Answers.effect (h : Answers read line s reply quits t) :
    (∃ source, Evaluates read line source ∧ t = finalState (load source s)) ∨
      ((∀ source, ¬ Evaluates read line source) ∧ t.input = s.input ∧ t.output = s.output) := by
  -- the commands apart from the one that loads a file
  have hother {name argument : String} {names : List String} (hc : IsCommand line name argument)
      (hname : name ∈ names) (hd : ∀ n ∈ names, n ∉ ["load", "l"]) :
      ∀ source, ¬ Evaluates read line source :=
    not_evaluates hc fun hload => absurd hload (hd name hname)
  have hsource {r : EStateM.Result EvalError Session (List Value)}
      (hsource : line.toList.head? ≠ some ':') (hl : evaluateLine line s = r) :
      ∃ source, Evaluates read line source ∧ finalState r = finalState (load source s) :=
    ⟨line, .line hsource, hl ▸ finalState_evaluateLine line s⟩
  cases h with
  | shown hs hl _ => exact .inl (hsource hs hl)
  | silent hs hl _ => exact .inl (hsource hs hl)
  | failed hs hl => exact .inl (hsource hs hl)
  | quit hc hname => exact .inr ⟨hother hc hname (by decide), rfl, rfl⟩
  | stack hc hname => exact .inr ⟨hother hc hname (by decide), rfl, rfl⟩
  | words hc hname => exact .inr ⟨hother hc hname (by decide), rfl, rfl⟩
  | help hc hname => exact .inr ⟨hother hc hname (by decide), rfl, rfl⟩
  | clear hc => exact .inr ⟨hother hc (List.mem_singleton.2 rfl) (by decide), rfl, rfl⟩
  | loaded hc hname hne hread hl => exact .inl ⟨_, .file hc hname hne hread, hl ▸ rfl⟩
  | loadFailed hc hname hne hread hl => exact .inl ⟨_, .file hc hname hne hread, hl ▸ rfl⟩
  | loadDenied hc hname hne hread =>
    refine .inr ⟨not_evaluates hc fun _ _ source htext => ?_, rfl, rfl⟩
    exact hread.not_holds htext
  | unknown hc hname =>
    refine .inr ⟨not_evaluates hc fun hload hne => ?_, rfl, rfl⟩
    rcases hname with hname | ⟨-, hempty⟩
    · exact absurd ((by decide : ∀ n ∈ ["load", "l"], n ∈ commandNames) _ hload) hname
    · exact absurd hempty hne

theorem Evaluates.unique {source' : String} (h : Evaluates read line source)
    (h' : Evaluates read line source') : source' = source := by
  cases h with
  | line hsource =>
    cases h' with
    | line _ => rfl
    | file hc _ _ _ => exact absurd hc.head? hsource
  | file hc _ _ hread =>
    cases h' with
    | line hsource => exact absurd hc.head? hsource
    | file hc' _ _ hread' =>
      obtain ⟨rfl, rfl⟩ := hc.unique hc'
      exact Except.ok.inj (hread'.readText.symm.trans hread.readText)

theorem exists_linePrints (read : FileReader) (line : String) (s : Session) :
    ∃ text, LinePrints read line s text := by
  by_cases h : ∃ source, Evaluates read line source
  · obtain ⟨source, he⟩ := h
    obtain ⟨text, ht⟩ := exists_loadPrints source s
    exact ⟨text, .source he ht⟩
  · exact ⟨[], .none (not_exists.1 h)⟩

theorem Answers.output (h : Answers read line s reply quits t) {text : List UInt8}
    (hp : LinePrints read line s text) (ho : s.output.Accepts) :
    t.output = s.output.after text := by
  rcases h.effect with ⟨source, he, rfl⟩ | ⟨hnone, -, hout⟩
  · cases hp with
    | source he' hp =>
      obtain rfl := he.unique he'
      exact output_load hp ho
    | none hnone => exact absurd he (hnone source)
  · cases hp with
    | source he _ => exact absurd he (hnone _)
    | none _ => rw [hout, Output.after_nil]

theorem Answers.input (h : Answers read line s reply quits t) (hr : ¬ LineReads read line s) :
    t.input = s.input := by
  rcases h.effect with ⟨source, he, rfl⟩ | ⟨-, hinput, -⟩
  · exact input_load fun hread => hr ⟨source, he, hread⟩
  · exact hinput

/-- A command to quit leaves all as it is, and says nothing. -/
theorem Answers.eq_of_quits (h : Answers read line s reply true t) : reply = "" ∧ t = s := by
  cases h with
  | quit _ _ => exact ⟨rfl, rfl⟩

end Line

/-! From line to line. -/

/-- The bytes of a line are a text in UTF-8, of which this is left without the white space at its
ends. -/
def LineText (line : List UInt8) (text : String) : Prop :=
  ∃ typed, String.fromUTF8? ⟨line.toArray⟩ = some typed ∧ Trims typed text

/-- One turn of the conversation takes the next line: one that is blank does nothing, and any other
is answered, unless the answer ends the conversation or a program reads from the input. The text is
what is written in the turn: what the programs of the line print, and the reply. -/
inductive Turn (read : FileReader) : List (List UInt8) × Session → List UInt8 →
    List (List UInt8) × Session → Prop where
  | blank {line : List UInt8} {rest : List (List UInt8)} {s : Session} :
      LineText line "" → Turn read (line :: rest, s) [] (rest, s)
  | answered {line : List UInt8} {rest : List (List UInt8)} {text reply : String}
      {s t : Session} {printed : List UInt8} : LineText line text → text ≠ "" →
      ¬ LineReads read text { s with input := rest.flatten } →
      LinePrints read text { s with input := rest.flatten } printed →
      Answers read text { s with input := rest.flatten } reply false t →
      Turn read (line :: rest, s) (printed ++ reply.toUTF8.data.toList)
        (rest, { t with output := t.output.after reply.toUTF8.data.toList })

/-- Turns in order, and what is written in their course. -/
inductive Turns (read : FileReader) : List (List UInt8) × Session → List UInt8 →
    List (List UInt8) × Session → Prop where
  | none (m : List (List UInt8) × Session) : Turns read m [] m
  | cons {m n o : List (List UInt8) × Session} {text text' : List UInt8} : Turn read m text n →
      Turns read n text' o → Turns read m (text ++ text') o

/-- The conversation is over: there is no further line, or the answer to the next one ends it. -/
inductive IsOver (read : FileReader) : List (List UInt8) × Session → Prop where
  | endOfInput (s : Session) : IsOver read ([], s)
  | quit {line : List UInt8} {rest : List (List UInt8)} {text reply : String} {s t : Session} :
      LineText line text → text ≠ "" →
      Answers read text { s with input := rest.flatten } reply true t →
      IsOver read (line :: rest, s)

/-- The editor hands on the lines of the input in order, without what ends them, and then comes to
the end of the input. -/
structure Editor.Yields (editor : Editor) (input : List UInt8) : Prop where
  line {line : List UInt8} {rest : List (List UInt8)} {typed : String} :
    line :: rest <:+ Input.lines input → String.fromUTF8? ⟨line.toArray⟩ = some typed →
    ∃ text ending, typed = text ++ ending ∧ ending ∈ ["", "\n", "\r\n"] ∧
      editor.next (line :: rest).flatten = .line text rest.flatten
  endOfInput : editor.next [] = .endOfInput

section Loop
variable {read : FileReader} {editor : Editor} {input : List UInt8} {s : Session}
  {m n : List (List UInt8) × Session} {written : List UInt8}

theorem Turn.suffix (h : Turn read m written n) : n.1 <:+ m.1 := by
  cases h with
  | blank _ => exact List.suffix_cons _ _
  | answered _ _ _ _ _ => exact List.suffix_cons _ _

/-- What is written in a turn comes to the output. -/
theorem Turn.output (h : Turn read m written n) (ho : m.2.output.Accepts) :
    n.2.output = m.2.output.after written := by
  cases h with
  | blank _ => exact (Output.after_nil _).symm
  | answered _ _ _ hprints hanswers =>
    change Output.after _ _ = _
    rw [hanswers.output hprints ho, Output.after_after]

theorem Turns.output (h : Turns read m written n) (ho : m.2.output.Accepts) :
    n.2.output = m.2.output.after written := by
  induction h with
  | none m => exact (Output.after_nil _).symm
  | @cons m n o text text' hturn _ ih =>
    have hstep : n.2.output = m.2.output.after text := hturn.output ho
    calc o.2.output
        = n.2.output.after text' := ih (hstep ▸ ho.after text)
      _ = (m.2.output.after text).after text' := by rw [hstep]
      _ = m.2.output.after (text ++ text') := Output.after_after ..

/-- The text that the loop finds on a line is the text of the line: what ends it is white space. -/
theorem Editor.Yields.next (h : editor.Yields input) {line : List UInt8}
    {rest : List (List UInt8)} (hrest : line :: rest <:+ Input.lines input) {text : String}
    (htext : LineText line text) : ∃ typed,
      editor.next (line :: rest).flatten = .line typed rest.flatten ∧ trimmed typed = text := by
  obtain ⟨typed, hutf8, htrims⟩ := htext
  obtain ⟨typed', ending, rfl, hending, hnext⟩ := h.line hrest hutf8
  refine ⟨typed', hnext, ?_⟩
  -- whatever has been taken off the end would have been trimmed
  have hreturn : Text.isWhiteSpace '\r' = true := by decide
  have hwhite : ∀ c ∈ ending.toList, Text.isWhiteSpace c = true := by
    simp only [List.mem_cons, List.not_mem_nil, or_false] at hending
    rcases hending with rfl | rfl | rfl <;> simp [Text.isWhiteSpace_newline, hreturn]
  have hwhole : Trims (typed' ++ ending) (trimmed typed') :=
    (trims_trimmed typed').append hwhite
  rw [trims_iff.1 hwhole, trims_iff.1 htrims]

/-- The loop by the reading that comes next. -/
theorem answerLines_eq (read : FileReader) (editor : Editor) (pending : List UInt8) (s : Session) :
    answerLines read editor pending s =
      match editor.next pending with
      | .endOfInput => (.goodbye, s)
      | .failed reason => (.failed reason, s)
      | .interrupted rest => answerLines read editor rest (tell "^C\n" s)
      | .line text rest =>
        if (trimmed text).isEmpty then answerLines read editor rest s
        else
          let (reply, t) := respond read (trimmed text) { s with input := rest }
          let t := tell reply.text t
          if reply.quits then (.goodbye, t)
          else if t.input.length = rest.length then answerLines read editor rest t
          else answerLines read editor [] t := by
  rw [answerLines]
  split <;> next hnext => simp only [hnext]

/-- In a turn the loop goes on from line to line. -/
theorem answerLines_of_turn (hy : editor.Yields input) (h : Turn read m written n)
    (hm : m.1 <:+ Input.lines input) (ho : m.2.output.Accepts) :
    answerLines read editor m.1.flatten m.2 = answerLines read editor n.1.flatten n.2 := by
  cases h with
  | blank htext =>
    obtain ⟨typed, hnext, htyped⟩ := hy.next hm htext
    have hempty : (trimmed typed).isEmpty = true := String.isEmpty_iff.2 htyped
    rw [answerLines_eq]
    simp only [hnext, hempty, if_true]
  | @answered line rest text reply s t printed htext hne hquiet hprints hanswers =>
    obtain ⟨typed, hnext, rfl⟩ := hy.next hm htext
    have hempty : ¬ (trimmed typed).isEmpty = true := mt String.isEmpty_iff.1 hne
    have ht : t.output.Accepts := hanswers.output hprints ho ▸ ho.after printed
    -- the program has read nothing, so that the next line is there
    have hinput : t.input = rest.flatten := hanswers.input hquiet
    rw [answerLines_eq]
    simp only [hnext, hempty, hanswers.respond_eq, tell_of_accepts ht, hinput, if_true,
      Bool.false_eq_true, if_false]
    rfl

theorem answerLines_of_turns (hy : editor.Yields input) (h : Turns read m written n)
    (hm : m.1 <:+ Input.lines input) (ho : m.2.output.Accepts) :
    answerLines read editor m.1.flatten m.2 = answerLines read editor n.1.flatten n.2 := by
  induction h with
  | none m => rfl
  | cons hturn _ ih =>
    rw [answerLines_of_turn hy hturn hm ho]
    exact ih (hturn.suffix.trans hm) (hturn.output ho ▸ ho.after _)

theorem Turns.suffix (h : Turns read m written n) : n.1 <:+ m.1 := by
  induction h with
  | none m => exact List.suffix_refl _
  | cons hturn _ ih => exact ih.trans hturn.suffix

/-- Where the conversation is over the loop ends, and nothing more is written. -/
theorem answerLines_of_isOver (hy : editor.Yields input) (h : IsOver read m)
    (hm : m.1 <:+ Input.lines input) (ho : m.2.output.Accepts) :
    ∃ t, answerLines read editor m.1.flatten m.2 = (.goodbye, t) ∧ t.output = m.2.output := by
  cases h with
  | endOfInput s =>
    refine ⟨s, ?_, rfl⟩
    rw [answerLines_eq, List.flatten_nil, hy.endOfInput]
  | @quit line rest text reply s t htext hne hanswers =>
    obtain ⟨typed, hnext, rfl⟩ := hy.next hm htext
    have hempty : ¬ (trimmed typed).isEmpty = true := mt String.isEmpty_iff.1 hne
    obtain ⟨rfl, rfl⟩ := hanswers.eq_of_quits
    refine ⟨tell "" { s with input := rest.flatten }, ?_, ?_⟩
    · rw [answerLines_eq]
      simp only [hnext, hempty, hanswers.respond_eq, if_true, Bool.false_eq_true, if_false]
    · have htell := tell_of_accepts (s := { s with input := rest.flatten }) ho ""
      exact (congrArg (·.output) htell).trans (Output.after_nil _)

/-- Where no program reads, the turns go on until the conversation is over. -/
theorem exists_turns {lines : List (List UInt8)}
    (hlines : ∀ line ∈ lines, (String.fromUTF8? ⟨line.toArray⟩).isSome)
    (hquiet : ∀ written line rest t text, Turns read (lines, s) written (line :: rest, t) →
      LineText line text → text ≠ "" → ¬ LineReads read text { t with input := rest.flatten }) :
    ∃ written m, Turns read (lines, s) written m ∧ IsOver read m := by
  -- on the lines, for any session: the hypothesis on what reads moves on with each turn
  induction lines generalizing s with
  | nil => exact ⟨[], _, .none _, .endOfInput s⟩
  | cons line rest ih =>
    obtain ⟨hline, hrest⟩ := List.forall_mem_cons.1 hlines
    obtain ⟨typed, htyped⟩ := Option.isSome_iff_exists.1 hline
    have htext : LineText line (trimmed typed) := ⟨typed, htyped, trims_trimmed typed⟩
    -- after a turn that leads to `t` the lines that are left go on by themselves
    have hgo {t : Session} {text : List UInt8}
        (hturn : Turn read (line :: rest, s) text (rest, t)) :
        ∃ written m, Turns read (line :: rest, s) written m ∧ IsOver read m := by
      obtain ⟨written, m, hturns, hover⟩ := ih hrest fun written line' rest' u text' hturns =>
        hquiet _ line' rest' u text' (.cons hturn hturns)
      exact ⟨_, m, .cons hturn hturns, hover⟩
    by_cases hne : trimmed typed = ""
    · exact hgo (.blank (hne ▸ htext))
    · obtain ⟨reply, quits, t, hanswers⟩ := exists_answers read (trimmed typed)
        { s with input := rest.flatten }
      cases quits with
      | true => exact ⟨[], _, .none _, .quit htext hne hanswers⟩
      | false =>
        obtain ⟨printed, hprints⟩ := exists_linePrints read (trimmed typed)
          { s with input := rest.flatten }
        have hreads := hquiet _ line rest s _ (.none _) htext hne
        exact hgo (.answered htext hne hreads hprints hanswers)

end Loop

section Run
variable {host : CommandLine.Host} {editor : Editor} {input : List UInt8} {s : Session}

/-- The session once the loop has greeted the user. -/
def greeted (s : Session) : Session :=
  let banner := "calc REPL (calcr). Type :help for commands, :quit to exit.\n\n"
  { s with output := s.output.after banner.toUTF8.data.toList }

theorem tell_banner (ho : s.output.Accepts) : tell banner s = greeted s :=
  tell_of_accepts ho banner

/-- The interactive loop on lines of text that its editor hands on. Once it has greeted the user it
writes, turn for turn, what the programs of the line print and then the reply, and the session goes
from turn to turn; it takes its leave when the conversation is over. If no program reads from the
input itself, the conversation comes to that: only the command to quit ends it before the input
does. What is answered to a line follows from its form, the session, and the file that it names. -/
theorem loop_converses (heditor : host.editor = .ok editor) (hyields : editor.Yields input)
    (hlines : ∀ line ∈ Input.lines input, (String.fromUTF8? ⟨line.toArray⟩).isSome)
    (ho : s.output.Accepts) (hs : s.input = input) :
    (∀ written m, Turns host.read (Input.lines input, greeted s) written m →
      IsOver host.read m → host.loop input s =
        { exitCode := 0, errors := []
          output := (greeted s).output.after (written ++ "Goodbye!\n".toUTF8.data.toList) }) ∧
    ((∀ written line rest t text,
        Turns host.read (Input.lines input, greeted s) written (line :: rest, t) →
        LineText line text → text ≠ "" →
        ¬ LineReads host.read text { t with input := rest.flatten }) →
      ∃ written m, Turns host.read (Input.lines input, greeted s) written m ∧
        IsOver host.read m) ∧
    ∀ line t reply quits u, respond host.read line t = ({ text := reply, quits }, u) ↔
      Answers host.read line t reply quits u := by
  refine ⟨fun written m hturns hover => ?_, exists_turns hlines, fun _ _ _ _ _ => respond_eq_iff⟩
  have hgreeted : (greeted s).output.Accepts := ho.after _
  have hsuffix : Input.lines input <:+ Input.lines input := List.suffix_refl _
  have hrun := answerLines_of_turns hyields hturns hsuffix hgreeted
  have hout := hturns.output hgreeted
  obtain ⟨t, hend, ht⟩ := answerLines_of_isOver hyields hover (hturns.suffix.trans hsuffix)
    (hout ▸ hgreeted.after written)
  rw [hend, Input.flatten_lines] at hrun
  -- the farewell comes after all that has been written in the turns
  have htold : (tell farewell t).output =
      (greeted s).output.after (written ++ Output.bytes farewell) := by
    have haccepts : t.output.Accepts := ht ▸ hout ▸ hgreeted.after written
    rw [tell_of_accepts haccepts]
    change t.output.after _ = _
    rw [ht, hout, Output.after_after]
  simp only [CommandLine.Host.loop, heditor, hs, if_true, run, tell_banner ho, hrun, htold]
  rfl

end Run

/-! A conversation. -/

/-- A line without backspaces is handed on as it was typed, without what ends it. -/
theorem Editor.direct_yields {input : List UInt8}
    (h : ∀ line ∈ Input.lines input, ∀ typed, String.fromUTF8? ⟨line.toArray⟩ = some typed →
      backspace ∉ typed.toList) : Editor.direct.Yields input where
  line {line rest typed} hsuffix htyped := by
    -- the line is the first one of what is left, so that it is split off next
    have hlines := Input.lines_flatten_of_suffix hsuffix
    have hne : (line :: rest).flatten ≠ [] := by
      intro hnil
      rw [hnil, Input.lines, dif_pos rfl] at hlines
      cases hlines
    rw [Input.lines_of_ne_nil hne] at hlines
    obtain ⟨hfirst, hafter⟩ := List.cons.inj hlines
    have hrest := congrArg List.flatten hafter
    rw [Input.flatten_lines] at hrest
    obtain ⟨ending, hending, happend⟩ := exists_withoutEnd typed.toList
    -- nothing in it takes anything back
    have hkept : kept (withoutEnd typed.toList) = withoutEnd typed.toList := by
      apply kept_eq_self
      intro hm
      exact h line (hsuffix.mem List.mem_cons_self) typed htyped
        (happend ▸ List.mem_append_left _ hm)
    refine ⟨String.ofList (withoutEnd typed.toList), ending, ?_, hending, ?_⟩
    · rw [← String.toList_inj, String.toList_append, String.toList_ofList, happend]
    · simp only [Editor.direct, if_neg hne, hfirst, htyped, hkept, hrest]
  endOfInput := rfl

section Example
variable {read : FileReader} {rest : List (List UInt8)} {s : Session}

theorem fromUTF8?_bytes (text : String) :
    String.fromUTF8? ⟨(Output.bytes text).toArray⟩ = some text := by
  change String.fromUTF8? text.toUTF8 = some text
  rw [String.fromUTF8?, String.toUTF8_eq_toByteArray, dif_pos text.isValidUTF8]
  rfl

theorem lineText_bytes {typed text : String} (h : trimmed typed = text) :
    LineText (Output.bytes typed) text :=
  ⟨typed, fromUTF8?_bytes typed, trims_iff.2 h.symm⟩

theorem isCommand_of_parts {line name argument rest : String} (hline : line = ":" ++ name ++ rest)
    (hname : name.toList.all (!Text.isWhiteSpace ·) = true)
    (hrest : rest.toList.head?.all Text.isWhiteSpace = true) (hargument : trimmed rest = argument) :
    IsCommand line name argument := by
  refine ⟨rest, hline, fun c hc => ?_, fun c hc => ?_, trims_iff.2 hargument.symm⟩
  · simpa using List.all_eq_true.1 hname c hc
  · rwa [Option.mem_def.1 hc] at hrest

/-- A turn in which there is nothing to evaluate. -/
theorem Turn.of_not_evaluates {line : List UInt8} {text reply : String} {t : Session}
    (htext : LineText line text) (hne : text ≠ "") (hnone : ∀ source, ¬ Evaluates read text source)
    (hanswers : Answers read text { s with input := rest.flatten } reply false t) :
    Turn read (line :: rest, s) reply.toUTF8.data.toList
      (rest, { t with output := t.output.after reply.toUTF8.data.toList }) := by
  have hquiet : ¬ LineReads read text { s with input := rest.flatten } := by
    intro hreads
    obtain ⟨source, he, -⟩ := hreads
    exact hnone source he
  exact .answered htext hne hquiet (.none hnone) hanswers

section Quiet
variable {operation : Primitive} {frames : List Frame} {s : Session}

theorem not_invokes_run {tokens : List Token} :
    ¬ Moment.Invokes operation ⟨.run tokens, frames, s⟩ := by
  intro h
  obtain ⟨name, htask, -⟩ := h
  cases htask

theorem not_invokes_raise {error : EvalError} :
    ¬ Moment.Invokes operation ⟨.raise error, frames, s⟩ := by
  intro h
  obtain ⟨name, htask, -⟩ := h
  cases htask

theorem not_invokes_unknown {name : String} (h : s.dictionary.lookup? name = none) :
    ¬ Moment.Invokes operation ⟨.execute name, frames, s⟩ := by
  intro hinvokes
  obtain ⟨name, htask, hlookup⟩ := hinvokes
  cases htask
  cases hlookup.symm.trans h

end Quiet

/-- A turn in which a number is pushed and a word is not known. -/
theorem turn_unknownWord (hlookup : s.dictionary.lookup? "nope" = none) :
    ∃ t, Turn read (Output.bytes "1 nope\n" :: rest, s)
      "Error: unknown word 'nope'\n".toUTF8.data.toList (rest, t) := by
  let error : EvalError := { kind := .unknownWord "nope", word := some "nope" }
  let u : Session := { s with input := rest.flatten }
  let v : Session := { u with depth := 0 }.pushed (.number 1)
  have htext : LineText (Output.bytes "1 nope\n") "1 nope" := lineText_bytes (by decide +kernel)
  let tokens : List Token := [⟨.number 1, ⟨1, 1⟩⟩, ⟨.word "nope", ⟨1, 3⟩⟩]
  have htokens : tokenize "1 nope" = .ok tokens := by decide +kernel
  have hload : load "1 nope" u = .error error v := by
    rw [load_of_tokens htokens, evaluate_number, evaluate_single]
    exact execute_unknown hlookup
  -- the steps of the evaluation, of which none prints or reads
  have hfail : Moment.step ⟨.execute "nope", [.rest []], v⟩ =
      some ⟨.raise error, [.rest []], v⟩ := by
    simp only [Moment.step, Moment.executeStep]
    rw [show v.dictionary.lookup? "nope" = none from hlookup]
  have hline : Moment.line ⟨.execute "nope", [.rest []], v⟩ = [] := by
    simp only [Moment.line]
    rw [show v.dictionary.lookup? "nope" = none from hlookup]
  have hprints : Moment.Prints ⟨.execute "nope", [.rest []], v⟩ [] ⟨.raise error, [], v⟩ := by
    have h := Moment.Prints.step hfail (.step rfl (.none ⟨.raise error, [], v⟩))
    rwa [hline] at h
  have hsource : ("1 nope" : String).toList.head? ≠ some ':' := by decide
  have hquiet : ¬ LineReads read "1 nope" u := by
    intro hreads
    obtain ⟨source, he, _, m, ht, hm, hi⟩ := hreads
    obtain rfl := he.unique (.line hsource)
    cases ht.symm.trans htokens
    have hraised : ∀ o, Moment.Leads ⟨.raise error, [.rest []], v⟩ o → ¬ o.Invokes .readNumber :=
      forall_of_step rfl not_invokes_raise (forall_of_end rfl not_invokes_raise)
    have hword : ∀ o, Moment.Leads ⟨.run [⟨.word "nope", ⟨1, 3⟩⟩], [], v⟩ o →
        ¬ o.Invokes .readNumber :=
      forall_of_step rfl not_invokes_run
        (forall_of_step hfail (not_invokes_unknown hlookup) hraised)
    have hall : ∀ o, (Moment.outset tokens u).Leads o → ¬ o.Invokes .readNumber :=
      forall_of_step rfl not_invokes_run hword
    exact hall m hm hi
  have hanswers : Answers read "1 nope" u "Error: unknown word 'nope'\n" false v := by
    have hmessage : "Error: " ++ error.message ++ "\n" = "Error: unknown word 'nope'\n" := by
      decide +kernel
    rw [← hmessage]
    exact .failed hsource (evaluateLine_of_error hload)
  exact ⟨_, .answered htext (by decide) hquiet
    (.source (.line hsource) (.tokens htokens (.step rfl (.step rfl hprints)) rfl)) hanswers⟩

/-- What is told of a failed program, of an unknown command and of a file that is not there. None of
them ends the conversation, and the line behind the one that quits is not answered. -/
theorem conversation_of_failures :
    let host := CommandLine.Host.standard fun _ => .error .noSuchFile
    let input := "1 nope\n:frob\n:load x\n:quit\n2\n".toUTF8.data.toList
    host.loop input { input } =
      { exitCode := 0, errors := []
        output := .after {} ("calc REPL (calcr). Type :help for commands, :quit to exit.\n\n" ++
          "Error: unknown word 'nope'\n" ++
          "Unknown command: :frob. Type :help for available commands.\n" ++
          "Error: x: No such file or directory (os error 2)\n" ++
          "Goodbye!\n").toUTF8.data.toList } := by
  intro host input
  have hlines : Input.lines input = [Output.bytes "1 nope\n", Output.bytes ":frob\n",
      Output.bytes ":load x\n", Output.bytes ":quit\n", Output.bytes "2\n"] := by decide +kernel
  have htyped : ∀ line ∈ Input.lines input, ∃ typed, line = Output.bytes typed ∧
      backspace ∉ typed.toList := by
    rw [hlines]
    simp only [List.forall_mem_cons]
    exact ⟨⟨_, rfl, by decide +kernel⟩, ⟨_, rfl, by decide +kernel⟩, ⟨_, rfl, by decide +kernel⟩,
      ⟨_, rfl, by decide +kernel⟩, ⟨_, rfl, by decide +kernel⟩, List.forall_mem_nil _⟩
  have hyields : Editor.direct.Yields input := by
    apply Editor.direct_yields
    intro line hl typed hutf8
    obtain ⟨typed', rfl, hbackspace⟩ := htyped line hl
    cases hutf8.symm.trans (fromUTF8?_bytes typed')
    exact hbackspace
  have hvalid : ∀ line ∈ Input.lines input, (String.fromUTF8? ⟨line.toArray⟩).isSome := by
    intro line hl
    obtain ⟨typed, rfl, -⟩ := htyped line hl
    rw [fromUTF8?_bytes]
    rfl
  -- the commands, none of which evaluates anything
  have hfrob : IsCommand ":frob" "frob" "" :=
    isCommand_of_parts (rfl : _ = ":" ++ "frob" ++ "") rfl rfl rfl
  have hload : IsCommand ":load x" "load" "x" :=
    isCommand_of_parts (rfl : _ = ":" ++ "load" ++ " x") rfl rfl (by decide +kernel)
  have hquit : IsCommand ":quit" "quit" "" :=
    isCommand_of_parts (rfl : _ = ":" ++ "quit" ++ "") rfl rfl rfl
  have hdenies : host.read.Denies "x" "No such file or directory (os error 2)" :=
    @FileReader.Denies.unreadable _ _ .noSuchFile rfl
  -- turn for turn
  have hsecond (rest : List (List UInt8)) (t : Session) :
      ∃ u, Turn host.read (Output.bytes ":frob\n" :: rest, t)
        "Unknown command: :frob. Type :help for available commands.\n".toUTF8.data.toList
        (rest, u) :=
    ⟨_, .of_not_evaluates (lineText_bytes (by decide +kernel)) (by decide)
      (not_evaluates hfrob fun h => absurd h (by decide)) (.unknown hfrob (.inl (by decide)))⟩
  have hthird (rest : List (List UInt8)) (t : Session) :
      ∃ u, Turn host.read (Output.bytes ":load x\n" :: rest, t)
        "Error: x: No such file or directory (os error 2)\n".toUTF8.data.toList (rest, u) :=
    ⟨_, .of_not_evaluates (lineText_bytes (by decide +kernel)) (by decide)
      (not_evaluates hload fun _ _ _ h => hdenies.not_holds h)
      (.loadDenied hload (by decide) (by decide) hdenies)⟩
  have hfourth (rest : List (List UInt8)) (t : Session) :
      IsOver host.read (Output.bytes ":quit\n" :: rest, t) :=
    .quit (lineText_bytes (by decide +kernel)) (by decide) (.quit hquit (by decide))
  obtain ⟨t, hfirst⟩ : ∃ t, Turn host.read (Input.lines input, greeted { input }) _ (_, t) :=
    hlines ▸ turn_unknownWord (by decide +kernel)
  obtain ⟨u, hsecond⟩ := hsecond _ t
  obtain ⟨v, hthird⟩ := hthird _ u
  have hloop := (loop_converses (rfl : host.editor = .ok .direct) hyields hvalid
    Output.accepts_empty rfl).1 _ _ (.cons hfirst (.cons hsecond (.cons hthird (.none _))))
    (hfourth _ v)
  have hgreeted : (greeted { input }).output = .after {}
      "calc REPL (calcr). Type :help for commands, :quit to exit.\n\n".toUTF8.data.toList := rfl
  rw [hloop, hgreeted, Output.after_after]
  rfl

end Example

end Repl

end StackCalc
