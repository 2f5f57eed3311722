import StackCalc.Proofs.InputLines
import StackCalc.Proofs.Rendering
import StackCalc.Proofs.Simulation.Sessions
import StackCalc.Proofs.Underway

/-!
One line for each value. No name that a session comes to store has white space in it, so the text of
a value breaks no line: `print` writes one line, and the listing of a stack has a line for each of
its values.
-/
namespace StackCalc

open Eval Moment Text

/-! Lines of texts. -/

namespace Output

theorem bytes_eq_flatMap (text : String) :
    bytes text = text.toList.flatMap String.utf8EncodeChar := by
  rw [bytes, String.toUTF8, ← String.utf8Encode_toList, List.utf8Encode, List.data_toByteArray]

theorem bytes_append (s t : String) : bytes (s ++ t) = bytes s ++ bytes t := by
  simp only [bytes_eq_flatMap, String.toList_append, List.flatMap_append]

theorem bytes_newline : bytes "\n" = [Input.lineFeed] := by decide

/-- Only a newline has a line feed among its bytes. -/
theorem lineFeed_notMem_utf8EncodeChar {c : Char} (h : c ≠ '\n') :
    Input.lineFeed ∉ String.utf8EncodeChar c := by
  have hne : c.val.toNat ≠ 10 := fun he => h (Char.ext (UInt32.toNat_inj.1 he))
  have hbyte {n : Nat} (h10 : n % 256 ≠ 10) : ¬ Input.lineFeed = UInt8.ofNat n := by
    intro he
    have hn := congrArg UInt8.toNat he
    rw [UInt8.toNat_ofNat'] at hn
    exact h10 hn.symm
  -- the bytes of a longer code are 128 and above
  unfold String.utf8EncodeChar
  simp only
  split_ifs <;> simp only [List.mem_cons, List.not_mem_nil, or_false, not_or]
  · exact hbyte (by omega)
  · exact ⟨hbyte (by omega), hbyte (by omega)⟩
  · exact ⟨hbyte (by omega), hbyte (by omega), hbyte (by omega)⟩
  · exact ⟨hbyte (by omega), hbyte (by omega), hbyte (by omega), hbyte (by omega)⟩

theorem lineFeed_notMem_bytes {text : String} (h : '\n' ∉ text.toList) :
    Input.lineFeed ∉ bytes text := by
  rw [bytes_eq_flatMap, List.mem_flatMap]
  rintro ⟨c, hc, hmem⟩
  refine lineFeed_notMem_utf8EncodeChar ?_ hmem
  rintro rfl
  exact h hc

/-- What is written line by line is read line by line. -/
theorem lines_bytes_join {texts : List String} (h : ∀ text ∈ texts, '\n' ∉ text.toList) :
    Input.lines (bytes (String.join (texts.map (· ++ "\n")))) =
      texts.map fun text => bytes (text ++ "\n") := by
  induction texts with
  | nil =>
    rw [Input.lines]
    rfl
  | cons text rest ih =>
    obtain ⟨htext, hrest⟩ := List.forall_mem_cons.1 h
    obtain ⟨tail, htail⟩ : ∃ tail, tail = bytes (String.join (rest.map (· ++ "\n"))) := ⟨_, rfl⟩
    have hfirst : Input.FirstLine (bytes text ++ Input.lineFeed :: tail)
        (bytes text ++ [Input.lineFeed]) tail :=
      .ended (lineFeed_notMem_bytes htext)
    obtain ⟨hline, hafter⟩ := hfirst.eq_splitLine
    rw [List.map_cons, String.join_cons, bytes_append, bytes_append, bytes_newline, ← htail,
      List.append_assoc, List.singleton_append, Input.lines,
      dif_neg (List.append_ne_nil_of_right_ne_nil _ (List.cons_ne_nil _ _)), ← hline, ← hafter,
      htail, ih hrest, List.map_cons, bytes_append, bytes_newline]

theorem lines_bytes_line {text : String} (h : '\n' ∉ text.toList) :
    Input.lines (bytes (text ++ "\n")) = [bytes (text ++ "\n")] := by
  have hjoin := lines_bytes_join (List.forall_mem_singleton.2 h)
  rwa [List.map_singleton, String.join_cons, String.join_nil, String.append_empty] at hjoin

end Output

/-! In the text of what is legible only the blanks between tokens and items are white space. -/

theorem Token.Kind.not_isWhiteSpace_of_mem_text {kind : Token.Kind} (h : kind.IsLegible) {c : Char}
    (hc : c ∈ kind.text) : isWhiteSpace c = false := by
  have hname {name : String} (hn : Token.IsName name) (hc : c ∈ name.toList) :
      isWhiteSpace c = false := Token.isWhiteSpace_of_isNameChar (hn.chars c hc)
  cases kind with
  | number x => exact Token.isWhiteSpace_of_isNameChar (isNameChar_of_mem_numberText hc).1
  | quoted name =>
    rcases List.mem_cons.1 hc with rfl | hc
    · decide
    · exact hname h hc
  | word name => exact hname h.1 hc
  | opener bracket =>
    rw [List.mem_singleton.1 hc]
    cases bracket <;> decide
  | closer bracket =>
    rw [List.mem_singleton.1 hc]
    cases bracket <;> decide

namespace Value

theorem mem_itemsText {items : List Value} {c : Char} (h : c ∈ itemsText items) :
    c = ',' ∨ c = ' ' ∨ ∃ item ∈ items, c ∈ item.text := by
  induction items with
  | nil => cases h
  | cons item rest ih =>
    rw [itemsText_cons, List.mem_append] at h
    rcases h with h | h
    · exact .inr (.inr ⟨item, List.mem_cons_self, h⟩)
    · cases rest with
      | nil => cases h
      | cons next rest =>
        rcases List.mem_cons.1 h with rfl | h
        · exact .inl rfl
        · rcases List.mem_cons.1 h with rfl | h
          · exact .inr (.inl rfl)
          · rcases ih h with hc | hc | ⟨item, hi, hc⟩
            · exact .inl hc
            · exact .inr (.inl hc)
            · exact .inr (.inr ⟨item, List.mem_cons_of_mem _ hi, hc⟩)

theorem eq_blank_of_mem_text {v : Value} (h : v.WellFormed) {c : Char} (hc : c ∈ v.text)
    (hw : isWhiteSpace c = true) : c = ' ' := by
  have hkind {kind : Token.Kind} (hk : kind.IsLegible) (hc : c ∈ kind.text) : c = ' ' := by
    rw [Token.Kind.not_isWhiteSpace_of_mem_text hk hc] at hw
    cases hw
  -- the marks of the text itself
  have hmark {text : List Char} (hm : c ∈ text)
      (hall : (text.all fun c => c == ' ' || !isWhiteSpace c) = true) : c = ' ' := by
    have hone := List.all_eq_true.1 hall c hm
    rw [hw, Bool.not_true, Bool.or_false] at hone
    exact eq_of_beq hone
  induction v using Value.induction with
  | number x =>
    rw [text] at hc
    rw [Token.isWhiteSpace_of_isNameChar (isNameChar_of_mem_numberText hc).1] at hw
    cases hw
  | sequence items ih =>
    rw [text, List.cons_append, List.mem_cons, List.mem_append] at hc
    rcases hc with hc | hc | hc
    · exact hmark (List.mem_singleton.2 hc) (by decide)
    · rcases mem_itemsText hc with hc | hc | ⟨item, hi, hc⟩
      · exact hmark (List.mem_singleton.2 hc) (by decide)
      · exact hc
      · exact ih item hi (wellFormed_sequence.1 h item hi) hc
    · exact hmark hc (by decide)
  | quotation body =>
    rw [text, List.cons_append, List.mem_cons, List.mem_append, List.mem_flatMap] at hc
    rcases hc with hc | ⟨token, ht, hc⟩ | hc
    · exact hmark (List.mem_singleton.2 hc) (by decide)
    · rcases List.mem_cons.1 hc with hc | hc
      · exact hc
      · exact hkind ((wellFormed_quotation.1 h).legible token ht) hc
    · exact hmark hc (by decide)
  | reference name =>
    have hquoted : (Token.Kind.quoted name).IsLegible := wellFormed_reference.1 h
    rw [text] at hc
    exact hkind hquoted hc

theorem newline_notMem_render {v : Value} (h : v.WellFormed) : '\n' ∉ v.render.toList := by
  intro hc
  rw [render, String.toList_ofList] at hc
  exact absurd (eq_blank_of_mem_text h hc isWhiteSpace_newline) (by decide)

end Value

/-! What sessions store. -/

/-- All names that the dictionary keeps can be written down, those of its links too. -/
structure Dictionary.Legible (d : Dictionary) : Prop where
  wellFormed : d.WellFormed
  links : ∀ link ∈ d.links, Token.IsName link.name ∧ Token.IsName link.source

namespace Standard

/-- All that is stored can be written down and read back. -/
def legible : Standard where
  value := Value.WellFormed
  dictionary := Dictionary.Legible
  number := Value.wellFormed_number
  sequence := Value.wellFormed_sequence
  body hd hl := Value.wellFormed_quotation.2 (hd.wellFormed.bodies hl)
  define hd hn hb :=
    { wellFormed :=
        hd.wellFormed.define (Value.wellFormed_reference.1 hn) (Value.wellFormed_quotation.1 hb)
      links := fun link h => hd.links link (List.mem_of_mem_filter h) }
  addAlias := by
    intro d e name source hd hn ha
    have hname := Value.wellFormed_reference.1 hn
    refine ⟨hd.wellFormed.addAlias hname ha, ?_⟩
    unfold Dictionary.addAlias at ha
    split at ha
    next => cases ha
    next definition hl =>
      split at ha
      next =>
        cases ha
        exact hd.links
      next =>
        cases ha
        intro link h
        rcases List.mem_append.1 h with h | h
        · exact hd.links link (List.mem_of_mem_filter h)
        · rw [List.mem_singleton.1 h]
          exact ⟨hname, hd.wellFormed.names hl⟩

theorem reads_legible : legible.Reads where
  plain h hk := Value.wellFormed_quotation.2 ((Value.wellFormed_quotation.1 h).of_plain hk)
  quoted h := Value.wellFormed_reference.2 (Value.wellFormed_quotation.1 h).head
  split h hsplit := by
    obtain ⟨body, after, hparts, hbody, hafter⟩ :=
      (Value.wellFormed_quotation.1 h).splitAtCloser
    cases hsplit.symm.trans hparts
    exact ⟨Value.wellFormed_quotation.2 hbody, Value.wellFormed_quotation.2 hafter⟩

end Standard

namespace Session

/-- The sessions that come up, while a source text is evaluated too: a new session becomes others by
evaluations, by the emptying of its stack, and by what a host does with its streams. -/
inductive Arises : Session → Prop where
  | fresh (settings : Settings) (input : List UInt8) (output : Output) :
      Arises (fresh settings .primitives [] input output)
  | evaluated {s : Session} {source : String} {tokens : List Token} {m : Moment} : Arises s →
      tokenize source = .ok tokens → (outset tokens s).Leads m → Arises m.session
  | cleared {s : Session} : Arises s → Arises s.clearStack
  | streams {s : Session} (input : List UInt8) (output : Output) : Arises s →
      Arises { s with input, output }

namespace Arises
variable {s : Session}

theorem load (h : s.Arises) (source : String) : (finalState (load source s)).Arises := by
  cases ht : tokenize source with
  | error fault =>
    rw [load_of_fault ht]
    exact h
  | ok tokens =>
    rw [← session_ended []]
    exact h.evaluated ht (leads_load ht s)

/-- The interactive loop makes of such a session one of them again. -/
theorem respond (h : s.Arises) (read : FileReader) (line : String) :
    (Repl.respond read line s).2.Arises := by
  have hsource (source : String) : (Repl.respondToSource source s).2.Arises := by
    have hload := h.load source
    rw [Repl.respondToSource]
    cases hl : Eval.load source s with
    | ok a t =>
      rw [hl] at hload
      rw [evaluateLine_of_ok hl]
      cases ht : t.stack.top? <;> simp only [ht] <;> exact hload
    | error error t =>
      rw [hl] at hload
      rw [evaluateLine_of_error hl]
      exact hload
  rw [Repl.respond]
  cases Repl.Command.ofLine? line with
  | none => exact hsource line
  | some command =>
    cases command with
    | clear => exact h.cleared
    | load path =>
      simp only [Repl.respondToCommand, loadFile]
      cases read.readText path with
      | error fault => exact h
      | ok source =>
        have hload := h.load source
        cases hl : Eval.load source s <;> rw [hl] at hload <;> simp only [hl] <;> exact hload
    | _ => exact h

theorem meets (h : s.Arises) : s.Meets .legible := by
  -- over how the session has come up; only an evaluation stores anything
  induction h with
  | fresh settings input output =>
    exact ⟨List.forall_mem_nil _, List.forall_mem_nil _,
      Dictionary.wellFormed_primitives, List.forall_mem_nil _⟩
  | evaluated _ ht hm ih =>
    have htokens := Value.wellFormed_quotation.2 (Token.isProgram_of_tokenize ht)
    exact (Moment.Meets.of_leads Standard.reads_legible ih htokens hm).session
  | cleared _ ih => exact ⟨List.forall_mem_nil _, ih.enclosing, ih.dictionary⟩
  | streams _ _ _ ih => exact { ih with }

end Arises

theorem Reachable.arises {s : Session} (h : s.Reachable) : s.Arises :=
  h.preserves .fresh (fun source _ hs => hs.load source) fun _ hs => hs.cleared

/-- The value occurs on the stack or on one that a scope has set aside, by itself or in a
sequence. -/
def Holds (s : Session) (v : Value) : Prop :=
  ∃ stack ∈ s.stack :: s.enclosing, ∃ w ∈ stack.values, v.Within w

/-- The name stands in a value, in the definition of a word, or is itself kept by the dictionary. -/
inductive Stores (s : Session) : String → Prop where
  | reference {name : String} : s.Holds (.reference name) → Stores s name
  | quotation {name : String} {body : List Token} {token : Token} : s.Holds (.quotation body) →
      token ∈ body → token.kind = .quoted name ∨ token.kind = .word name → Stores s name
  | bound {name : String} {definition : Definition} :
      s.dictionary.lookup? name = some definition → Stores s name
  | body {name word : String} {body : List Token} {token : Token} :
      s.dictionary.lookup? word = some (.user body) → token ∈ body →
        token.kind = .quoted name ∨ token.kind = .word name → Stores s name
  | linkName {link : AliasLink} : link ∈ s.dictionary.links → Stores s link.name
  | linkSource {link : AliasLink} : link ∈ s.dictionary.links → Stores s link.source

theorem Meets.wellFormed_of_holds {s : Session} (h : s.Meets .legible) {v : Value}
    (hv : s.Holds v) : v.WellFormed := by
  obtain ⟨stack, hstack, w, hw, hvw⟩ := hv
  refine Value.WellFormed.of_within ?_ hvw
  rcases List.mem_cons.1 hstack with rfl | hstack
  · exact h.stack w hw
  · exact h.enclosing stack hstack w hw

theorem Meets.isName_of_stores {s : Session} (h : s.Meets .legible) {name : String}
    (hn : s.Stores name) : Token.IsName name := by
  have hbody {name : String} {body : List Token} {token : Token} (hb : Token.IsProgram body)
      (ht : token ∈ body) (hk : token.kind = .quoted name ∨ token.kind = .word name) :
      Token.IsName name := by
    have hlegible := hb.legible token ht
    rcases hk with hk | hk
    · rw [hk] at hlegible
      exact hlegible
    · rw [hk] at hlegible
      exact hlegible.1
  cases hn with
  | reference hv => exact Value.wellFormed_reference.1 (h.wellFormed_of_holds hv)
  | quotation hv ht hk =>
    exact hbody (Value.wellFormed_quotation.1 (h.wellFormed_of_holds hv)) ht hk
  | bound hl => exact h.dictionary.wellFormed.names hl
  | body hl ht hk => exact hbody (h.dictionary.wellFormed.bodies hl) ht hk
  | linkName hl => exact (h.dictionary.links _ hl).1
  | linkSource hl => exact (h.dictionary.links _ hl).2

end Session

/-! What is written: a line by `print`, and a line for each value of a listed stack. -/

theorem Output.eq_of_writeLine {text : String} {out out' : Output}
    (h : writeLine text out = .ok () out') :
    out' = if out.discards then out else out.after (bytes (text ++ "\n")) := by
  have hflush {o o' : Output} (hf : flush o = .ok () o') : o' = o := by
    rw [flush] at hf
    split at hf <;> cases hf
    rfl
  obtain ⟨_, o, hw, hf⟩ := bind_eq_ok.1 h
  rw [hflush hf]
  unfold write at hw
  split at hw
  next hd =>
    cases hw
    rw [if_pos hd]
  next hd =>
    rw [if_neg hd]
    split at hw
    next =>
      cases hw
      rfl
    next =>
      simp only at hw
      split at hw <;> cases hw
      rfl

/-- What `print` takes and writes where it succeeds, under whatever name. -/
theorem Eval.execute_print {call : Caller} {name : String} {s t : Session}
    (hl : s.dictionary.lookup? name = some (.primitive .print))
    (h : execute call name s = .ok () t) :
    ∃ value rest, s.stack.values = value :: rest ∧ t.stack.values = rest ∧
      t.output = if s.output.discards then s.output
        else s.output.after (Output.bytes (value.render ++ "\n")) := by
  have hinvoke : invoke call .print s = .ok none t := by
    cases hi : invoke call .print s with
    | error error u =>
      rw [execute_primitive_error hl hi] at h
      cases h
    | ok next u =>
      obtain ⟨-, rfl⟩ := only_eq_ok.1 hi
      rw [execute_primitive_ok hl hi] at h
      cases h
      rfl
  have hprint : print s = .ok () t := (only_eq_ok.1 hinvoke).1
  cases hv : s.stack.values with
  | nil =>
    rw [print_of_nil hv] at hprint
    cases hprint
  | cons value rest =>
    rw [print_of_cons hv] at hprint
    cases hline : Output.writeLine value.render s.output with
    | error fault output =>
      rw [hline] at hprint
      cases hprint
    | ok _ output =>
      rw [hline] at hprint
      cases hprint
      refine ⟨value, rest, rfl, ?_, Output.eq_of_writeLine hline⟩
      rw [Stack.values_dropped, hv, List.drop_succ_cons, List.drop_zero]

namespace Repl
variable {s : Stack}

/-- The line of a value that lies `places` below the top. -/
def stackLine (places : Nat) (value : Value) : String :=
  placed places ++ ": " ++ value.render

theorem stackLines_of_ne_nil (h : s.values ≠ []) :
    stackLines s = (s.values.zipIdx.map fun (value, places) => stackLine places value).reverse := by
  have hne : ¬ s.isEmpty = true := by
    rw [Stack.isEmpty, List.isEmpty_iff]
    exact h
  rw [stackLines, if_neg hne]
  rfl

theorem newline_notMem_stackLine {value : Value} (h : value.WellFormed) (places : Nat) :
    '\n' ∉ (stackLine places value).toList := by
  have hplaced : (placed places).toList =
      List.replicate (3 - (toString places).length) ' ' ++ Nat.toDigits 10 places := by
    rw [placed, String.toList_append, String.toList_ofList, Nat.toString_eq_ofList_toDigits,
      String.toList_ofList]
  rw [stackLine, String.toList_append, String.toList_append, hplaced, List.mem_append,
    List.mem_append, List.mem_append]
  -- the blanks, the digits, the colon, and the value
  rintro (((hc | hc) | hc) | hc)
  · exact absurd (List.eq_of_mem_replicate hc) (by decide)
  · exact absurd (Nat.isDigit_of_mem_toDigits (by decide) (by decide) hc) (by decide)
  · exact absurd hc (by decide)
  · exact Value.newline_notMem_render h hc

/-- The listing has one line for each value, and that of the top is the last. -/
theorem lines_listing (h : ∀ v ∈ s.values, v.WellFormed) (hne : s.values ≠ []) :
    Input.lines (Output.bytes (Reply.lines (stackLines s)).text) =
      (s.values.zipIdx.map fun (value, places) =>
        Output.bytes (stackLine places value ++ "\n")).reverse := by
  rw [stackLines_of_ne_nil hne, Reply.lines, Output.lines_bytes_join, List.map_reverse,
    List.map_map]
  · rfl
  · intro text ht
    obtain ⟨⟨value, places⟩, hv, rfl⟩ := List.mem_map.1 (List.mem_reverse.1 ht)
    exact newline_notMem_stackLine (h value (List.fst_mem_of_mem_zipIdx hv)) places

theorem getElem?_listing (h : ∀ v ∈ s.values, v.WellFormed) {k : Nat} {value : Value}
    (hk : s.values[k]? = some value) :
    (Input.lines (Output.bytes (Reply.lines (stackLines s)).text))[s.height - 1 - k]? =
      some (Output.bytes (stackLine k value ++ "\n")) := by
  have hlt := (List.getElem?_eq_some_iff.1 hk).1
  have hne : s.values ≠ [] := List.ne_nil_of_length_pos (Nat.zero_lt_of_lt hlt)
  -- reversed twice, an index is what it was
  have hlast : s.values.length - 1 - (s.values.length - 1 - k) = k := by omega
  rw [lines_listing h hne, s.height_eq, List.getElem?_reverse, List.length_map, List.length_zipIdx,
    hlast, List.getElem?_map, List.getElem?_zipIdx, hk]
  · simp only [Option.map_some, Nat.zero_add]
  · rw [List.length_map, List.length_zipIdx]
    omega

end Repl

/-- However a session has come up, the names that it stores are not empty and have no white space in
them, so the text of a value that it holds has no white space but blanks, and breaks no line. Where
`print` succeeds it takes a value and writes one line with it. The listing of a stack says that it
is empty, or has as many lines as there are values: the line of the value that lies `k` places below
the top, `k` lines above the last, begins with `k`. -/
theorem one_line_per_value {s : Session} (h : s.Arises) :
    (∀ name, s.Stores name → name ≠ "" ∧ ∀ c ∈ name.toList, isWhiteSpace c = false) ∧
      (∀ v, s.Holds v → ∀ c ∈ v.render.toList, isWhiteSpace c = true → c = ' ') ∧
      (∀ call name t, s.dictionary.lookup? name = some (.primitive .print) →
        execute call name s = .ok () t →
          ∃ value rest line, s.stack.values = value :: rest ∧ t.stack.values = rest ∧
            line = Output.bytes (value.render ++ "\n") ∧ Input.lines line = [line] ∧
            t.output = if s.output.discards then s.output else s.output.after line) ∧
      ∀ read command, command = ":stack" ∨ command = ":s" →
        ∃ text lines, Repl.respond read command s = ({ text }, s) ∧
          lines = Input.lines (Output.bytes text) ∧
          (s.stack.values = [] → text = "(empty)\n") ∧
          (s.stack.values ≠ [] → lines.length = s.stack.height ∧
            ∀ k v, s.stack.values[k]? = some v →
              lines[s.stack.height - 1 - k]? = some (Output.bytes
                (String.ofList (List.replicate (3 - (toString k).length) ' ') ++ toString k ++
                  ": " ++ v.render ++ "\n"))) := by
  have hmeets := h.meets
  have hstack {v : Value} (hv : v ∈ s.stack.values) : s.Holds v :=
    ⟨s.stack, List.mem_cons_self, v, hv, .self v⟩
  refine ⟨?_, ?_, ?_, ?_⟩
  · intro name hn
    have hname := hmeets.isName_of_stores hn
    refine ⟨?_, fun c hc => Token.isWhiteSpace_of_isNameChar (hname.chars c hc)⟩
    rintro rfl
    exact hname.nonempty rfl
  · intro v hv c hc hw
    rw [Value.render, String.toList_ofList] at hc
    exact Value.eq_blank_of_mem_text (hmeets.wellFormed_of_holds hv) hc hw
  · intro call name t hl he
    obtain ⟨value, rest, hvalues, hrest, houtput⟩ := execute_print hl he
    have hvalue := hmeets.wellFormed_of_holds (hstack (hvalues ▸ List.mem_cons_self))
    exact ⟨value, rest, _, hvalues, hrest, rfl,
      Output.lines_bytes_line (Value.newline_notMem_render hvalue), houtput⟩
  · intro read command hcommand
    refine ⟨(Repl.Reply.lines (Repl.stackLines s.stack)).text, _, ?_, rfl, ?_, ?_⟩
    · rcases hcommand with rfl | rfl <;> rfl
    · intro hempty
      rw [Repl.stackLines, Stack.isEmpty, hempty]
      rfl
    · intro hne
      have hwell (v : Value) (hv : v ∈ s.stack.values) : v.WellFormed :=
        hmeets.wellFormed_of_holds (hstack hv)
      refine ⟨?_, fun k v hk => Repl.getElem?_listing hwell hk⟩
      rw [Repl.lines_listing hwell hne, List.length_reverse, List.length_map, List.length_zipIdx,
        s.stack.height_eq]

/-- The listing of two references. -/
theorem one_line_per_value_two :
    ∃ text, Repl.respond (fun _ => .error .noSuchFile) ":s"
        (Session.bare.perform (.load ",x ,y")).2 =
      ({ text }, (Session.bare.perform (.load ",x ,y")).2) ∧
      (Input.lines (Output.bytes text)).length = 2 ∧
      (Input.lines (Output.bytes text))[1]? = some (Output.bytes "  0: ,y\n") := by
  have hvalues : (Session.bare.perform (.load ",x ,y")).2.stack.values =
      [.reference "y", .reference "x"] := by
    decide +kernel
  have hheight : (Session.bare.perform (.load ",x ,y")).2.stack.height = 2 := by
    rw [Stack.height_eq, hvalues]
    rfl
  have harises := (Session.Reachable.perform (.load ",x ,y") .bare).arises
  obtain ⟨text, _, hrespond, rfl, -, hlines⟩ :=
    (one_line_per_value harises).2.2.2 (fun _ => .error .noSuchFile) ":s" (.inr rfl)
  obtain ⟨hlength, hline⟩ := hlines (by rw [hvalues]; exact List.cons_ne_nil _ _)
  have htop := hline 0 (.reference "y") (by rw [hvalues]; rfl)
  rw [hheight] at hlength htop
  exact ⟨text, hrespond, hlength, htop⟩

end StackCalc
