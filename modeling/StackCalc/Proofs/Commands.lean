import StackCalc.Proofs.Files
import StackCalc.Proofs.InputLines
import StackCalc.Repl

/-!
What the interactive loop answers to one line. The line without the white space around it is source
text, or it is a command by the form of its text; the answer follows from this, from the session and
from the file that a command names.
-/
namespace StackCalc.Repl

open Eval Text

/-! The form of a line. -/

/-- The text is the line without the white space around it. -/
structure Trims (line text : String) : Prop where
  around : ∃ before after, line.toList = before ++ (text.toList ++ after) ∧
    (∀ c ∈ before, isWhiteSpace c = true) ∧ ∀ c ∈ after, isWhiteSpace c = true
  front : ∀ c ∈ text.toList.head?, isWhiteSpace c = false
  back : ∀ c ∈ text.toList.getLast?, isWhiteSpace c = false

/-- The line is a command: a colon, a name that ends with the line or at the first white space, and
an argument, which is what is left without the white space around it. -/
def IsCommand (line name argument : String) : Prop :=
  ∃ rest, line = ":" ++ name ++ rest ∧ (∀ c ∈ name.toList, isWhiteSpace c = false) ∧
    (∀ c ∈ rest.toList.head?, isWhiteSpace c = true) ∧ Trims rest argument

section Form
variable {line text name argument : String}

theorem Trims.trim_eq (h : Trims line text) : trim line.toList = text.toList := by
  obtain ⟨⟨before, after, happend, hb, ha⟩, hfront, hback⟩ := h
  rw [happend, trim_append hb hfront hback ha]

theorem trims_trimmed (line : String) : Trims line (trimmed line) where
  around := by
    obtain ⟨before, after, happend, hb, ha⟩ := exists_trim line.toList
    exact ⟨before, after, by rw [trimmed, String.toList_ofList, happend], hb, ha⟩
  front := by
    rw [trimmed, String.toList_ofList]
    exact isWhiteSpace_head?_trim
  back := by
    rw [trimmed, String.toList_ofList]
    exact isWhiteSpace_getLast?_trim

theorem trims_iff : Trims line text ↔ text = trimmed line := by
  constructor
  · intro h
    rw [trimmed, h.trim_eq, String.ofList_toList]
  · rintro rfl
    exact trims_trimmed line

/-- White space behind a line does not count. -/
theorem Trims.append {ending : String} (h : Trims line text)
    (hending : ∀ c ∈ ending.toList, isWhiteSpace c = true) : Trims (line ++ ending) text where
  around := by
    obtain ⟨before, after, happend, hb, ha⟩ := h.around
    refine ⟨before, after ++ ending.toList, ?_, hb, ?_⟩
    · rw [String.toList_append, happend, List.append_assoc, List.append_assoc]
    · exact fun c hc => (List.mem_append.1 hc).elim (ha c) (hending c)
  front := h.front
  back := h.back

/-- A line is source text unless it starts with a colon. -/
theorem ofLine?_eq_none_iff : Command.ofLine? line = none ↔ line.toList.head? ≠ some ':' := by
  rw [Command.ofLine?]
  split
  next h => simp [h]
  next h =>
    refine iff_of_true rfl fun hc => ?_
    obtain ⟨rest, hrest⟩ := List.head?_eq_some_iff.1 hc
    exact h rest hrest

/-- Where the parts of a command lie in its line. -/
theorem IsCommand.parts (h : IsCommand line name argument) :
    ∃ text, line.toList = ':' :: text ∧ text.takeWhile (!isWhiteSpace ·) = name.toList ∧
      trim (text.dropWhile (!isWhiteSpace ·)) = argument.toList := by
  obtain ⟨rest, hline, hname, hrest, hargument⟩ := h
  have hspan : (name.toList ++ rest.toList).takeWhile (!isWhiteSpace ·) = name.toList ∧
      (name.toList ++ rest.toList).dropWhile (!isWhiteSpace ·) = rest.toList :=
    Token.span_append_of_head? (by simpa using hname) (by simpa using hrest)
  refine ⟨name.toList ++ rest.toList, ?_, hspan.1, ?_⟩
  · rw [hline, String.toList_append, String.toList_append]
    rfl
  · rw [hspan.2, hargument.trim_eq]

theorem IsCommand.ofLine? (h : IsCommand line name argument) :
    Command.ofLine? line = some (.ofName line name argument) := by
  obtain ⟨text, hline, hname, hargument⟩ := h.parts
  simp only [Command.ofLine?, hline, hname, hargument, String.ofList_toList]

/-- A line is one command at most. -/
theorem IsCommand.unique {name' argument' : String} (h : IsCommand line name argument)
    (h' : IsCommand line name' argument') : name' = name ∧ argument' = argument := by
  obtain ⟨text, hline, hname, hargument⟩ := h.parts
  obtain ⟨text', hline', hname', hargument'⟩ := h'.parts
  obtain rfl : text = text' := (List.cons.inj (hline.symm.trans hline')).2
  exact ⟨String.toList_inj.1 (hname'.symm.trans hname),
    String.toList_inj.1 (hargument'.symm.trans hargument)⟩

theorem IsCommand.head? (h : IsCommand line name argument) : line.toList.head? = some ':' := by
  obtain ⟨text, hline, -⟩ := h.parts
  rw [hline, List.head?_cons]

theorem exists_isCommand (h : line.toList.head? = some ':') :
    ∃ name argument, IsCommand line name argument := by
  obtain ⟨text, htext⟩ := List.head?_eq_some_iff.1 h
  -- the name goes up to the first white space, and what is left is trimmed
  refine ⟨String.ofList (text.takeWhile (!isWhiteSpace ·)), _,
    String.ofList (text.dropWhile (!isWhiteSpace ·)), ?_, ?_, ?_, trims_trimmed _⟩
  · simp only [← String.toList_inj, htext, String.toList_append, String.toList_ofList,
      List.append_assoc, List.takeWhile_append_dropWhile]
    rfl
  · intro c hc
    rw [String.toList_ofList] at hc
    simpa using List.mem_takeWhile_imp hc
  · intro c hc
    rw [String.toList_ofList] at hc
    have hnot := List.head?_dropWhile_not (!isWhiteSpace ·) text
    rw [Option.mem_def.1 hc] at hnot
    simpa using hnot

end Form

/-! Answers. -/

/-- The names of commands. -/
def commandNames : List String :=
  ["quit", "q", "stack", "s", "words", "w", "clear", "load", "l", "help", "h"]

/-- What the loop answers to a line in the session `s`: the reply, whether the conversation ends
with it, and the session after it. -/
inductive Answers (read : FileReader) (line : String) (s : Session) :
    String → Bool → Session → Prop where
  /-- A line that does not start with a colon is source text. Its effect is that of its evaluation,
  and the reply shows the value that is then on top. -/
  | shown {values rest : List Value} {value : Value} {t : Session} :
      line.toList.head? ≠ some ':' → evaluateLine line s = .ok values t →
      t.stack.values = value :: rest → Answers read line s (value.render ++ "\n") false t
  | silent {values : List Value} {t : Session} : line.toList.head? ≠ some ':' →
      evaluateLine line s = .ok values t → t.stack.values = [] → Answers read line s "" false t
  | failed {error : EvalError} {t : Session} : line.toList.head? ≠ some ':' →
      evaluateLine line s = .error error t →
      Answers read line s ("Error: " ++ error.message ++ "\n") false t
  | quit {name argument : String} : IsCommand line name argument → name ∈ ["quit", "q"] →
      Answers read line s "" true s
  | stack {name argument : String} : IsCommand line name argument → name ∈ ["stack", "s"] →
      Answers read line s (Reply.lines (stackLines s.stack)).text false s
  | words {name argument : String} : IsCommand line name argument → name ∈ ["words", "w"] →
      Answers read line s (Reply.lines (wordLines s.dictionary)).text false s
  | help {name argument : String} : IsCommand line name argument → name ∈ ["help", "h"] →
      Answers read line s (Reply.lines helpLines).text false s
  | clear {argument : String} : IsCommand line "clear" argument →
      Answers read line s "Stack cleared.\n" false { s with stack := .empty }
  | loaded {name path source : String} {t : Session} : IsCommand line name path →
      name ∈ ["load", "l"] → path ≠ "" → read.Holds path source → load source s = .ok () t →
      Answers read line s ("Loaded " ++ path ++ "\n") false t
  | loadFailed {name path source : String} {error : EvalError} {t : Session} :
      IsCommand line name path → name ∈ ["load", "l"] → path ≠ "" → read.Holds path source →
      load source s = .error error t →
      Answers read line s ("Error: " ++ path ++ ": " ++ error.message ++ "\n") false t
  | loadDenied {name path reason : String} : IsCommand line name path → name ∈ ["load", "l"] →
      path ≠ "" → read.Denies path reason →
      Answers read line s ("Error: " ++ path ++ ": " ++ reason ++ "\n") false s
  /-- The command has no such name, or it lacks a path. -/
  | unknown {name argument : String} : IsCommand line name argument →
      name ∉ commandNames ∨ (name ∈ ["load", "l"] ∧ argument = "") →
      Answers read line s
        ("Unknown command: " ++ line ++ ". Type :help for available commands." ++ "\n") false s

section Answers
variable {read : FileReader} {line name argument reply : String} {s t : Session} {quits : Bool}

theorem respond_of_source (h : line.toList.head? ≠ some ':') :
    respond read line s = respondToSource line s := by
  rw [respond, ofLine?_eq_none_iff.2 h]

theorem respond_of_isCommand (h : IsCommand line name argument) :
    respond read line s = respondToCommand read s (.ofName line name argument) := by
  rw [respond, h.ofLine?]

theorem respond_of_load (h : IsCommand line name argument) (hname : name ∈ ["load", "l"])
    (hne : argument ≠ "") :
    respond read line s = respondToCommand read s (.load argument) := by
  have hload : (if argument.isEmpty then Command.unknown line else .load argument) =
      .load argument := if_neg (mt String.isEmpty_iff.1 hne)
  rw [respond_of_isCommand h, ← hload]
  rcases List.mem_pair.1 hname with rfl | rfl <;> rfl

theorem ofName_of_notMem (h : name ∉ commandNames) :
    Command.ofName line name argument = .unknown line := by
  unfold Command.ofName
  split
  -- any name that stands for a command is among the names
  all_goals
    first
      | rfl
      | exact absurd (by decide) h

/-- The loop gives this answer. -/
theorem Answers.respond_eq (h : Answers read line s reply quits t) :
    respond read line s = ({ text := reply, quits }, t) := by
  -- the form of the line tells which command it is, if it is one
  cases h with
  | shown hsource hl ht =>
    rw [respond_of_source hsource, respondToSource, hl]
    simp only [Stack.top?, ht, List.head?_cons]
    rfl
  | silent hsource hl ht =>
    rw [respond_of_source hsource, respondToSource, hl]
    simp only [Stack.top?, ht, List.head?_nil]
  | failed hsource hl =>
    rw [respond_of_source hsource, respondToSource, hl]
    rfl
  | quit hc hname =>
    rw [respond_of_isCommand hc]
    rcases List.mem_pair.1 hname with rfl | rfl <;> rfl
  | stack hc hname =>
    rw [respond_of_isCommand hc]
    rcases List.mem_pair.1 hname with rfl | rfl <;> rfl
  | words hc hname =>
    rw [respond_of_isCommand hc]
    rcases List.mem_pair.1 hname with rfl | rfl <;> rfl
  | help hc hname =>
    rw [respond_of_isCommand hc]
    rcases List.mem_pair.1 hname with rfl | rfl <;> rfl
  | clear hc =>
    rw [respond_of_isCommand hc]
    rfl
  | loaded hc hname hne hread hl =>
    rw [respond_of_load hc hname hne]
    simp only [respondToCommand, loadFile, hread.readText, hl]
    rfl
  | loadFailed hc hname hne hread hl =>
    rw [respond_of_load hc hname hne]
    simp only [respondToCommand, loadFile, hread.readText, hl, LoadFault.message]
    rfl
  | loadDenied hc hname hne hread =>
    obtain ⟨fault, hfault, rfl⟩ := hread.readText
    rw [respond_of_load hc hname hne]
    simp only [respondToCommand, loadFile, hfault, LoadFault.message]
    rfl
  | unknown hc hname =>
    rw [respond_of_isCommand hc]
    rcases hname with hname | ⟨hname, rfl⟩
    · rw [ofName_of_notMem hname]
      rfl
    · rcases List.mem_pair.1 hname with rfl | rfl <;> rfl

theorem exists_answers_load (h : IsCommand line name argument) (hname : name ∈ ["load", "l"]) :
    ∃ reply quits t, Answers read line s reply quits t := by
  by_cases hne : argument = ""
  · exact ⟨_, _, _, .unknown h (.inr ⟨hname, hne⟩)⟩
  · rcases read.holds_or_denies argument with ⟨source, hread⟩ | ⟨reason, hread⟩
    · cases hl : load source s with
      | ok _ t => exact ⟨_, _, _, .loaded h hname hne hread hl⟩
      | error error t => exact ⟨_, _, _, .loadFailed h hname hne hread hl⟩
    · exact ⟨_, _, _, .loadDenied h hname hne hread⟩

/-- Each line has an answer. -/
theorem exists_answers (read : FileReader) (line : String) (s : Session) :
    ∃ reply quits t, Answers read line s reply quits t := by
  by_cases hcolon : line.toList.head? = some ':'
  · obtain ⟨name, argument, hc⟩ := exists_isCommand hcolon
    by_cases hname : name ∈ commandNames
    · -- a name stands for one command, and one of them depends on its argument
      have hcases : name ∈ ["quit", "q"] ∨ name ∈ ["stack", "s"] ∨ name ∈ ["words", "w"] ∨
          name = "clear" ∨ name ∈ ["load", "l"] ∨ name ∈ ["help", "h"] := by
        simpa only [commandNames, List.mem_cons, List.not_mem_nil, or_false, or_assoc] using hname
      rcases hcases with h | h | h | rfl | h | h
      · exact ⟨_, _, _, .quit hc h⟩
      · exact ⟨_, _, _, .stack hc h⟩
      · exact ⟨_, _, _, .words hc h⟩
      · exact ⟨_, _, _, .clear hc⟩
      · exact exists_answers_load hc h
      · exact ⟨_, _, _, .help hc h⟩
    · exact ⟨_, _, _, .unknown hc (.inl hname)⟩
  · cases hl : evaluateLine line s with
    | error error t => exact ⟨_, _, _, .failed hcolon hl⟩
    | ok values t =>
      cases ht : t.stack.values with
      | nil => exact ⟨_, _, _, .silent hcolon hl ht⟩
      | cons value rest => exact ⟨_, _, _, .shown hcolon hl ht⟩

theorem respond_eq_iff :
    respond read line s = ({ text := reply, quits }, t) ↔ Answers read line s reply quits t := by
  constructor
  · intro h
    obtain ⟨reply', quits', t', hanswers⟩ := exists_answers read line s
    have heq := hanswers.respond_eq.symm.trans h
    simp only [Prod.mk.injEq, Reply.mk.injEq] at heq
    obtain ⟨⟨rfl, rfl⟩, rfl⟩ := heq
    exact hanswers
  · exact Answers.respond_eq

end Answers

end StackCalc.Repl
