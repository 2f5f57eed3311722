import StackCalc.Proofs.ReadBack
import StackCalc.Proofs.Streams

/-!
Numbers from the input. Each time that `stdin` is executed it takes one line, whatever the line
holds. It finds a number there exactly if the reader would find this number and nothing else.
-/
namespace StackCalc

open Eval

namespace Input

/-- The bytes through the first line feed and the bytes after it, or all bytes where there is no
line feed. -/
inductive FirstLine : List UInt8 → List UInt8 → List UInt8 → Prop where
  | ended {content rest : List UInt8} : lineFeed ∉ content →
      FirstLine (content ++ lineFeed :: rest) (content ++ [lineFeed]) rest
  | last {bytes : List UInt8} : lineFeed ∉ bytes → FirstLine bytes bytes []

theorem firstLine_splitLine (bytes : List UInt8) :
    FirstLine bytes (splitLine bytes).1 (splitLine bytes).2 := by
  have hbefore : lineFeed ∉ bytes.takeWhile (· != lineFeed) := Token.notMem_takeWhile_ne
  have happend := List.takeWhile_append_dropWhile (p := (· != lineFeed)) (l := bytes)
  rw [splitLine]
  simp only
  cases hafter : bytes.dropWhile (· != lineFeed) with
  | nil =>
    rw [hafter, List.append_nil] at happend
    rw [List.take_nil, List.append_nil, List.drop_nil, happend]
    exact .last (happend ▸ hbefore)
  | cons b rest =>
    obtain rfl : b = lineFeed := Token.eq_of_dropWhile_ne hafter
    rw [hafter] at happend
    have hline : FirstLine (_ ++ lineFeed :: rest) (_ ++ [lineFeed]) rest := .ended hbefore
    rwa [happend] at hline

/-- There is one first line. -/
theorem FirstLine.eq_splitLine {bytes line rest : List UInt8} (h : FirstLine bytes line rest) :
    line = (splitLine bytes).1 ∧ rest = (splitLine bytes).2 := by
  have hne {content : List UInt8} (h : lineFeed ∉ content) :
      ∀ b ∈ content, (b != lineFeed) = true := by
    intro b hb
    refine bne_iff_ne.2 ?_
    rintro rfl
    exact h hb
  have hend : ¬ (lineFeed != lineFeed) = true := by decide
  rw [splitLine]
  cases h with
  | ended h =>
    rw [List.takeWhile_append_of_pos (hne h), List.dropWhile_append_of_pos (hne h),
      List.takeWhile_cons_of_neg (p := (· != lineFeed)) hend,
      List.dropWhile_cons_of_neg (p := (· != lineFeed)) hend, List.append_nil]
    exact ⟨rfl, rfl⟩
  | last h =>
    rw [List.takeWhile_eq_self_iff.2 (hne h), List.dropWhile_eq_nil_iff.2 (hne h)]
    exact ⟨(List.append_nil _).symm, rfl⟩

theorem lines_eq (bytes : List UInt8) :
    lines bytes = (lines bytes).take 1 ++ lines (splitLine bytes).2 := by
  by_cases h : bytes = []
  · subst h
    simp [lines, splitLine]
  · rw [lines, dif_neg h]
    rfl

end Input

namespace Text

theorem exists_trim (text : List Char) : ∃ before after, before ++ (trim text ++ after) = text ∧
    (∀ c ∈ before, isWhiteSpace c = true) ∧ ∀ c ∈ after, isWhiteSpace c = true := by
  obtain ⟨kept, hkept⟩ : ∃ kept, kept = text.dropWhile isWhiteSpace := ⟨_, rfl⟩
  refine ⟨text.takeWhile isWhiteSpace, (kept.reverse.takeWhile isWhiteSpace).reverse, ?_,
    fun c => List.mem_takeWhile_imp, fun c hc => List.mem_takeWhile_imp (List.mem_reverse.1 hc)⟩
  rw [trim, ← hkept, ← List.reverse_append, List.takeWhile_append_dropWhile, List.reverse_reverse,
    hkept, List.takeWhile_append_dropWhile]

theorem isWhiteSpace_head?_dropWhile {text : List Char} :
    ∀ c ∈ (text.dropWhile isWhiteSpace).head?, isWhiteSpace c = false := by
  intro c hc
  have hnot := List.head?_dropWhile_not isWhiteSpace text
  rwa [Option.mem_def.1 hc] at hnot

/-- What is left does not start with white space. -/
theorem isWhiteSpace_head?_trim {text : List Char} :
    ∀ c ∈ (trim text).head?, isWhiteSpace c = false := by
  intro c hc
  -- the end that is cut off does not matter for the start
  have hcut : (text.dropWhile isWhiteSpace).reverse.takeWhile isWhiteSpace ++
      (text.dropWhile isWhiteSpace).reverse.dropWhile isWhiteSpace = _ :=
    List.takeWhile_append_dropWhile
  rw [← List.reverse_inj, List.reverse_append, List.reverse_reverse] at hcut
  have hfirst : c ∈ (text.dropWhile isWhiteSpace).head? := by
    rw [← hcut, List.head?_append]
    change c ∈ (trim text).head?.or _
    rw [Option.mem_def.1 hc]
    rfl
  exact isWhiteSpace_head?_dropWhile c hfirst

theorem isWhiteSpace_getLast?_trim {text : List Char} :
    ∀ c ∈ (trim text).getLast?, isWhiteSpace c = false := by
  rw [trim, List.getLast?_reverse]
  exact isWhiteSpace_head?_dropWhile

/-- Only white space is cut off. -/
theorem notMem_of_trim {text : List Char} {c : Char} (hc : isWhiteSpace c = false)
    (h : c ∉ trim text) : c ∉ text := by
  obtain ⟨before, after, happend, hb, ha⟩ := exists_trim text
  have hnot {cut : List Char} (hw : ∀ d ∈ cut, isWhiteSpace d = true) : c ∉ cut := by
    intro hm
    rw [hw c hm] at hc
    cases hc
  rw [← happend, List.mem_append, List.mem_append, not_or, not_or]
  exact ⟨hnot hb, h, hnot ha⟩

/-- What does not start or end with white space is what is left of itself and the white space around
it. -/
theorem trim_append {before text after : List Char} (hb : ∀ c ∈ before, isWhiteSpace c = true)
    (hfront : ∀ c ∈ text.head?, isWhiteSpace c = false)
    (hback : ∀ c ∈ text.getLast?, isWhiteSpace c = false)
    (ha : ∀ c ∈ after, isWhiteSpace c = true) : trim (before ++ (text ++ after)) = text := by
  have hleft {front text : List Char} (rest : List Char)
      (hf : ∀ c ∈ front, isWhiteSpace c = true) (hne : text ≠ [])
      (ht : ∀ c ∈ text.head?, isWhiteSpace c = false) :
      (front ++ (text ++ rest)).dropWhile isWhiteSpace = text ++ rest := by
    apply And.right
    apply Token.span_append_of_head? hf
    rwa [List.head?_append_of_ne_nil _ hne]
  by_cases hne : text = []
  · -- all of it is white space
    subst hne
    have hall : ∀ c ∈ before ++ ([] ++ after), isWhiteSpace c = true := fun c hc =>
      (List.mem_append.1 hc).elim (hb c) (ha c)
    rw [trim, List.dropWhile_eq_nil_iff.2 hall]
    rfl
  · have hright := hleft [] (fun c hc => ha c (List.mem_reverse.1 hc))
      (mt List.reverse_eq_nil_iff.1 hne) (List.head?_reverse ▸ hback)
    rw [List.append_nil] at hright
    rw [trim, hleft _ hb hne hfront, List.reverse_append, hright, List.reverse_reverse]

end Text

/-! A text that is a single number, for the reader and for `stdin`. -/

namespace Token

open Text (isWhiteSpace trim)

theorem except_bind_eq_ok {ε α β : Type} {x : Except ε α} {f : α → Except ε β} {b : β}
    (h : (x >>= f) = .ok b) : ∃ a, x = .ok a ∧ f a = .ok b := by
  cases x with
  | error e => cases h
  | ok a => exact ⟨a, rfl, h⟩

section Lexemes
variable {text : List Char} {position : Text.Position} {lexeme : Lexeme}

theorem isWhiteSpace_of_lexemes_eq_nil (hm : commentMark ∉ text)
    (h : lexemes position text = []) : ∀ c ∈ text, isWhiteSpace c = true := by
  induction text generalizing position with
  | nil => exact List.forall_mem_nil _
  | cons c rest ih =>
    obtain ⟨hc, hrest⟩ := not_or.1 (mt List.mem_cons.2 hm)
    rw [lexemes, if_neg (Ne.symm hc)] at h
    split at h
    next hw => exact List.forall_mem_cons.2 ⟨hw, ih hrest h⟩
    next => split at h <;> cases h

/-- Without comments there is only white space around a single lexeme. -/
theorem exists_of_lexemes_eq_singleton (hm : commentMark ∉ text)
    (h : lexemes position text = [lexeme]) :
    ∃ before after, before ++ (lexeme.text ++ after) = text ∧
      (∀ c ∈ before, isWhiteSpace c = true) ∧ ∀ c ∈ after, isWhiteSpace c = true := by
  induction text generalizing position with
  | nil =>
    rw [lexemes] at h
    cases h
  | cons c rest ih =>
    obtain ⟨hc, hrest⟩ := not_or.1 (mt List.mem_cons.2 hm)
    rw [lexemes, if_neg (Ne.symm hc)] at h
    split at h
    next hw =>
      obtain ⟨before, after, rfl, hb, ha⟩ := ih hrest h
      exact ⟨c :: before, after, rfl, List.forall_mem_cons.2 ⟨hw, hb⟩, ha⟩
    next =>
      split at h
      · obtain ⟨rfl, hafter⟩ := List.cons.inj h
        exact ⟨[], rest, rfl, List.forall_mem_nil _, isWhiteSpace_of_lexemes_eq_nil hrest hafter⟩
      · obtain ⟨rfl, hafter⟩ := List.cons.inj h
        have hsub : commentMark ∉ rest.dropWhile isNameChar := fun h =>
          hrest ((List.dropWhile_sublist _).mem h)
        refine ⟨[], rest.dropWhile isNameChar, ?_, List.forall_mem_nil _,
          isWhiteSpace_of_lexemes_eq_nil hsub hafter⟩
        rw [List.nil_append, Lexeme.text, List.cons_append, List.takeWhile_append_dropWhile]

theorem Lexeme.read?_of_kind? {x : Float} (h : lexeme.kind? = .ok (.number x)) :
    Literal.read? lexeme.text = some x := by
  rw [Lexeme.kind?] at h
  split at h
  next kind hk =>
    -- no bracket is a number
    cases h
    simp only [bracketKind?] at hk
    repeat' split at hk
    all_goals cases hk
  next =>
    split at h
    · split at h <;> cases h
    · split at h <;> cases h
      assumption

/-- One token comes of one lexeme. -/
theorem exists_lexeme_of_scan {token : Token} (h : scan text = .ok [token]) :
    ∃ lexeme, lexemes ⟨1, 1⟩ text = [lexeme] ∧ lexeme.kind? = .ok token.kind := by
  rw [scan] at h
  cases hl : lexemes ⟨1, 1⟩ text with
  | nil =>
    rw [hl] at h
    cases h
  | cons lexeme rest =>
    rw [hl, List.mapM_cons] at h
    obtain ⟨first, hfirst, h⟩ := except_bind_eq_ok h
    obtain ⟨others, hothers, h⟩ := except_bind_eq_ok h
    cases h
    cases rest with
    | nil =>
      refine ⟨lexeme, rfl, ?_⟩
      rw [Lexeme.token?] at hfirst
      cases hk : lexeme.kind? with
      | error fault =>
        rw [hk] at hfirst
        cases hfirst
      | ok kind =>
        rw [hk] at hfirst
        cases hfirst
        rfl
    | cons next rest =>
      rw [List.mapM_cons] at hothers
      obtain ⟨second, -, hothers⟩ := except_bind_eq_ok hothers
      obtain ⟨more, -, hothers⟩ := except_bind_eq_ok hothers
      cases hothers

end Lexemes

theorem isWhiteSpace_of_isNameChar {c : Char} (h : isNameChar c = true) :
    isWhiteSpace c = false :=
  Bool.eq_false_iff.2 fun hw => by
    rw [isNameChar_of_isWhiteSpace hw] at h
    cases h

theorem Reads.surrounded {before word after : List Char} {kinds : List Kind}
    (h : Reads word kinds) (hb : ∀ c ∈ before, isWhiteSpace c = true)
    (ha : ∀ c ∈ after, isWhiteSpace c = true) : Reads (before ++ (word ++ after)) kinds := by
  have hafter : Reads after [] := by
    induction after with
    | nil => exact .nil
    | cons c after ih =>
      obtain ⟨hc, hrest⟩ := List.forall_mem_cons.1 ha
      exact (ih hrest).white hc
  induction before with
  | nil =>
    have happend := h.append hafter fun c hc =>
      isNameChar_of_isWhiteSpace (ha c (List.mem_of_mem_head? hc))
    rwa [List.append_nil] at happend
  | cons c before ih =>
    obtain ⟨hc, hrest⟩ := List.forall_mem_cons.1 hb
    exact (ih hrest).white hc

end Token

section SingleNumber
variable {text : String} {x : Float}

/-- Cut at both ends a text is a literal exactly if the reader finds one number in it and nothing
else, not even a comment. -/
theorem read?_trim_iff : Literal.read? (Text.trim text.toList) = some x ↔
    Token.commentMark ∉ text.toList ∧
      ∃ position, tokenize text = .ok [⟨.number x, position⟩] := by
  constructor
  · -- a literal is one run of the characters of names, and around it there is white space
    intro h
    obtain ⟨sign, q, hd⟩ := Literal.exists_denotes_of_read? h
    have hchars : ∀ c ∈ Text.trim text.toList, Token.isNameChar c = true := fun c hc =>
      Literal.isNameChar_of_isLiteralChar (hd.isLiteralChar_of_mem hc)
    obtain ⟨before, after, happend, hb, ha⟩ := Text.exists_trim text.toList
    refine ⟨Text.notMem_of_trim (by decide) fun hm => ?_, ?_⟩
    · have hname := hchars _ hm
      rw [Token.isNameChar_commentMark] at hname
      cases hname
    · have hquote : (Text.trim text.toList).head? ≠ some Token.quoteMark := by
        intro hhead
        have hmark := hd.isLiteralChar_of_mem (List.mem_of_mem_head? hhead)
        revert hmark
        decide
      have hreads := Token.reads_unquoted hd.ne_nil hchars hquote
      simp only [h] at hreads
      have hall := hreads.surrounded hb ha
      rw [happend] at hall
      have hone : Token.Nested [⟨.number x, {}⟩] := .plain rfl .nil
      obtain ⟨tokens, ht, hk⟩ := tokenize_of_reads hall fun _ hk => hone.of_kinds hk
      obtain ⟨⟨_, position⟩, rest, rfl, rfl, hrest⟩ := List.map_eq_cons_iff.1 hk
      obtain rfl := List.map_eq_nil_iff.1 hrest
      rw [String.ofList_toList] at ht
      exact ⟨position, ht⟩
  · -- without a comment the lexeme of the token is all but the white space around it
    rintro ⟨hm, position, ht⟩
    obtain ⟨lexeme, hl, hk⟩ := Token.exists_lexeme_of_scan (tokenize_eq_ok_iff.1 ht).1
    have hread : Literal.read? lexeme.text = some x := Token.Lexeme.read?_of_kind? hk
    obtain ⟨sign, q, hd⟩ := Literal.exists_denotes_of_read? hread
    obtain ⟨before, after, happend, hb, ha⟩ := Token.exists_of_lexemes_eq_singleton hm hl
    have hword : ∀ c ∈ lexeme.text, Text.isWhiteSpace c = false := fun c hc =>
      Token.isWhiteSpace_of_isNameChar
        (Literal.isNameChar_of_isLiteralChar (hd.isLiteralChar_of_mem hc))
    have hfront := fun c hc => hword c (List.mem_of_mem_head? hc)
    have hback := fun c hc => hword c (List.mem_of_getLast? hc)
    rwa [← happend, Text.trim_append hb hfront hback ha]

end SingleNumber

/-! Lines that hold a number. -/

/-- The line is text without a comment, and its only token is the number. -/
def Holds (line : List UInt8) (x : Float) : Prop :=
  ∃ text, String.fromUTF8? ⟨line.toArray⟩ = some text ∧ Token.commentMark ∉ text.toList ∧
    ∃ position, tokenize text = .ok [⟨.number x, position⟩]

/-- Why nothing is read: there is no line left, it is not text, or the text is not a number. -/
inductive Refuses (input line : List UInt8) : ErrorKind → Prop where
  | ended : input = [] → Refuses input line .endOfInput
  | undecodable : input ≠ [] → String.fromUTF8? ⟨line.toArray⟩ = none →
      Refuses input line (.io .invalidUtf8)
  | notANumber {text word : String} : input ≠ [] → String.fromUTF8? ⟨line.toArray⟩ = some text →
      Refuses input line (.parse (.notANumber word))

section Lines
variable {line : List UInt8} {x : Float}

theorem lineNumber?_eq_ok_iff : lineNumber? line = .ok x ↔ Holds line x := by
  rw [lineNumber?, Holds]
  cases ht : String.fromUTF8? ⟨line.toArray⟩ with
  | none => simp only [reduceCtorEq, false_and, exists_false]
  | some text =>
    simp only [Option.some.injEq, exists_eq_left', ← read?_trim_iff]
    cases Literal.read? (Text.trim text.toList) with
    | none => simp only [reduceCtorEq]
    | some y => simp only [Except.ok.injEq, Option.some.injEq]

theorem refuses_of_lineNumber? {input : List UInt8} {kind : ErrorKind} (hne : input ≠ [])
    (h : lineNumber? line = .error kind) : Refuses input line kind := by
  rw [lineNumber?] at h
  cases ht : String.fromUTF8? ⟨line.toArray⟩ with
  | none =>
    rw [ht] at h
    cases h
    exact .undecodable hne ht
  | some text =>
    simp only [ht] at h
    split at h
    next => cases h
    next =>
      cases h
      exact .notANumber hne ht

theorem not_holds_nil : ¬ Holds [] x := by
  rintro ⟨text, ht, -, position, htokens⟩
  obtain rfl : "" = text := Option.some.inj ht
  obtain ⟨lexeme, hl, -⟩ := Token.exists_lexeme_of_scan (tokenize_eq_ok_iff.1 htokens).1
  rw [String.toList_empty, Token.lexemes] at hl
  cases hl

end Lines

section Execution
variable {s : Session} {x : Float} {kind : ErrorKind}

/-- A number is pushed if the line holds it, and otherwise the line is lost. -/
theorem readNumber_eq (s : Session) :
    (∀ x, Holds (Input.splitLine s.input).1 x → readNumber s =
      .ok () ({ s with input := (Input.splitLine s.input).2 }.pushed (.number x))) ∧
    ((∀ x, ¬ Holds (Input.splitLine s.input).1 x) → ∃ kind,
      Refuses s.input (Input.splitLine s.input).1 kind ∧
        readNumber s = .error { kind } { s with input := (Input.splitLine s.input).2 }) := by
  rw [readNumber, get_bind_apply]
  by_cases hne : s.input = []
  · have hsplit : Input.splitLine s.input = ([], []) := by
      rw [hne]
      rfl
    rw [hsplit]
    refine ⟨fun x hx => (not_holds_nil hx).elim, fun _ => ⟨.endOfInput, .ended hne, ?_⟩⟩
    rw [if_pos (List.isEmpty_iff.2 hne), fail_apply, ← hne]
  · rw [if_neg (mt List.isEmpty_iff.1 hne)]
    simp only [modify_bind_apply]
    cases hl : lineNumber? (Input.splitLine s.input).1 with
    | ok y =>
      have hy := lineNumber?_eq_ok_iff.1 hl
      refine ⟨fun x hx => ?_, fun hn => (hn y hy).elim⟩
      obtain rfl : x = y := by
        have hx' := lineNumber?_eq_ok_iff.2 hx
        rw [hl] at hx'
        cases hx'
        rfl
      rfl
    | error kind =>
      refine ⟨fun x hx => ?_, fun _ => ⟨kind, refuses_of_lineNumber? hne hl, rfl⟩⟩
      rw [lineNumber?_eq_ok_iff.2 hx] at hl
      cases hl

theorem input_readNumber (s : Session) :
    (finalState (readNumber s)).input = (Input.splitLine s.input).2 := by
  by_cases hx : ∃ x, Holds (Input.splitLine s.input).1 x
  · obtain ⟨x, hx⟩ := hx
    rw [(readNumber_eq s).1 x hx]
    rfl
  · obtain ⟨kind, -, hr⟩ := (readNumber_eq s).2 (not_exists.1 hx)
    rw [hr]
    rfl

end Execution

namespace Moment

/-- The line that the next step takes from the input, if it takes one. -/
def taken (m : Moment) : List (List UInt8) :=
  match m.task with
  | .execute name =>
    match m.session.dictionary.lookup? name with
    | some (.primitive .readNumber) => (Input.lines m.session.input).take 1
    | _ => []
  | _ => []

/-- The steps from the one moment to the other take the lines from the input, one after the other.
-/
inductive Takes : Moment → List (List UInt8) → Moment → Prop where
  | none (m : Moment) : Takes m [] m
  | step {m n o : Moment} {lines : List (List UInt8)} : m.step = some n → Takes n lines o →
      Takes m (m.taken ++ lines) o

section Steps
variable {m n : Moment}

theorem taken_of_not_invokes (h : ¬ m.Invokes .readNumber) : m.taken = [] := by
  obtain ⟨task, frames, s⟩ := m
  cases task with
  | execute name =>
    rw [taken]
    simp only
    split
    next hl => exact absurd ⟨name, rfl, hl⟩ h
    next => rfl
  | _ => rfl

theorem input_start_readNumber (s : Session) :
    (finalState (start .readNumber s)).input = (Input.splitLine s.input).2 := by
  rw [← input_readNumber]
  exact congrArg Session.input
    ((finalState_bind_of_keeps fun _ _ => rfl).trans (finalState_bind_of_keeps fun _ _ => rfl))

/-- What a step takes it takes from the front of the input. -/
theorem Advance.lines (h : Advance m n) :
    Input.lines m.session.input = m.taken ++ Input.lines n.session.input := by
  by_cases hr : m.Invokes .readNumber
  · -- of the steps that execute a word, those of a primitive are left
    obtain ⟨name, htask, hl⟩ := hr
    obtain ⟨task, frames, s⟩ := m
    cases htask
    have htaken : taken ⟨.execute name, frames, s⟩ = (Input.lines s.input).take 1 := by
      simp only [taken, show s.dictionary.lookup? name = _ from hl]
    have hinput := input_start_readNumber s
    rw [htaken]
    cases h with
    | unknown hl' => cases hl'.symm.trans hl
    | user hl' => cases hl'.symm.trans hl
    | primitive hl' hs =>
      cases hl'.symm.trans hl
      rw [hs] at hinput
      exact hinput ▸ Input.lines_eq s.input
    | failed hl' hs =>
      cases hl'.symm.trans hl
      rw [hs] at hinput
      exact hinput ▸ Input.lines_eq s.input
  · rw [taken_of_not_invokes hr, h.streams.1 hr]
    rfl

/-- A run takes the lines of the input in order, and leaves the others. -/
theorem Leads.takes (h : m.Leads n) : ∃ lines, Takes m lines n ∧
    Input.lines m.session.input = lines ++ Input.lines n.session.input := by
  induction h using Relation.ReflTransGen.head_induction_on with
  | refl => exact ⟨[], .none n, rfl⟩
  | head hs _ ih =>
    obtain ⟨lines, ht, he⟩ := ih
    refine ⟨_, .step hs ht, ?_⟩
    rw [(advance_of_step hs).lines, he, List.append_assoc]

end Steps

end Moment

/-- An execution of `stdin` takes the bytes through the first line feed, whether it succeeds or not.
It pushes a number exactly if the line holds it, and else leaves everything but the input as it was:
at the end of the input, where the line is not text, or where it is not a number. So the executions
of a run take the lines of the input in order, each of them once. -/
theorem stdin_takes_line {s : Session} {name : String}
    (hl : s.dictionary.lookup? name = some (.primitive .readNumber)) :
    (∀ call, ∃ line rest, Input.FirstLine s.input line rest ∧
      (∀ x, Holds line x → execute call name s =
        .ok () { s with stack := s.stack.pushed (.number x), input := rest }) ∧
      ((∀ x, ¬ Holds line x) → ∃ kind,
        execute call name s = .error { kind, word := some name } { s with input := rest } ∧
          (kind = .endOfInput ↔ s.input = []) ∧
          ((∃ fault, kind = .io fault) ↔ String.fromUTF8? ⟨line.toArray⟩ = none) ∧
          ((∃ fault, kind = .parse fault) ↔
            s.input ≠ [] ∧ ∃ text, String.fromUTF8? ⟨line.toArray⟩ = some text))) ∧
      ∀ tokens m, (Moment.outset tokens s).Leads m → ∃ lines,
        Moment.Takes (.outset tokens s) lines m ∧
          Input.lines s.input = lines ++ Input.lines m.session.input := by
  refine ⟨fun call => ⟨_, _, Input.firstLine_splitLine s.input, fun x hx => ?_, fun hn => ?_⟩,
    fun tokens m h => h.takes⟩
  · exact execute_primitive_ok hl (only_eq_ok.2 ⟨(readNumber_eq s).1 x hx, rfl⟩)
  · obtain ⟨kind, hk, hr⟩ := (readNumber_eq s).2 hn
    refine ⟨kind, execute_primitive_error hl (bind_of_error hr), ?_⟩
    cases hk with
    | ended he =>
      rw [he]
      refine ⟨by simp, ?_, by simp⟩
      simp only [reduceCtorEq, exists_false, false_iff]
      decide
    | undecodable hne ht => simp [hne, ht]
    | notANumber hne ht => simp [hne, ht]

/-- Of two lines the first one is taken. -/
theorem stdin_takes_first :
    execute noCall "stdin" { Session.bare with input := [50, 10, 51] } =
      .ok () { Session.bare with stack := Stack.empty.pushed (.number 2), input := [51] } := by
  have hl : ({ Session.bare with input := [50, 10, 51] } : Session).dictionary.lookup? "stdin" =
      some (.primitive .readNumber) := by
    decide +kernel
  obtain ⟨line, rest, hline, hok, -⟩ := (stdin_takes_line hl).1 noCall
  obtain ⟨rfl, rfl⟩ := hline.eq_splitLine
  have htext : Holds (Input.splitLine [50, 10, 51]).1 2 := by
    refine ⟨"2\n", by decide +kernel, by decide, ⟨1, 1⟩, by decide +kernel⟩
  exact hok 2 htext

end StackCalc
