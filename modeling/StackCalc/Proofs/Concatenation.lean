import StackCalc.Proofs.BodyCalls
import StackCalc.Proofs.Layout

/-!
Loading two texts one after the other is loading both at once, with a line feed between them. The
scanner reads each text as if it stood alone, but for places; and a run of properly nested tokens is
over before anything behind them begins.
-/
namespace StackCalc

namespace Token

/-! Texts that are joined by a line feed are scanned apart. -/

/-- A span that a character ends is not changed by what lies behind that character. -/
theorem span_append_cons {f : Char → Bool} {c : Char} (hc : f c = false) (text rest : List Char) :
    (text ++ c :: rest).takeWhile f = text.takeWhile f ∧
      (text ++ c :: rest).dropWhile f = text.dropWhile f ++ c :: rest := by
  induction text with
  | nil =>
    have hneg : ¬ f c = true := Bool.eq_false_iff.1 hc
    exact ⟨List.takeWhile_cons_of_neg hneg, List.dropWhile_cons_of_neg hneg⟩
  | cons d text ih =>
    rw [List.cons_append, List.takeWhile_cons, List.dropWhile_cons, List.takeWhile_cons,
      List.dropWhile_cons]
    split
    · exact ⟨congrArg (d :: ·) ih.1, ih.2⟩
    · exact ⟨rfl, rfl⟩

theorem afterAll_takeWhile_dropWhile (position : Text.Position) (f : Char → Bool)
    (text : List Char) : (position.afterAll (text.takeWhile f)).afterAll (text.dropWhile f) =
      position.afterAll text := by
  rw [← Text.Position.afterAll_append, List.takeWhile_append_dropWhile]

/-- Comments and names end at a line feed at the latest. -/
theorem lexemes_append_newline (position : Text.Position) (text rest : List Char) :
    lexemes position (text ++ '\n' :: rest) =
      lexemes position text ++ lexemes ((position.afterAll text).after '\n') rest := by
  fun_induction lexemes position text with
  | case1 position =>
    rw [List.nil_append, List.nil_append, lexemes, if_neg (by decide), if_pos (by decide)]
    rfl
  | case2 position text ih =>
    have hends : ('\n' != '\n') = false := by decide
    obtain ⟨htake, hdrop⟩ := span_append_cons (f := fun c => c != '\n') hends text rest
    rw [afterAll_takeWhile_dropWhile] at ih
    rw [List.cons_append, lexemes, if_pos rfl, htake, hdrop, ih]
    rfl
  | case3 position c text hc hw ih =>
    rw [List.cons_append, lexemes, if_neg hc, if_pos hw, ih]
    rfl
  | case4 position c text hc hw hb ih =>
    rw [List.cons_append, lexemes, if_neg hc, if_neg hw, if_pos hb, ih]
    rfl
  | case5 position c text hc hw hb ih =>
    obtain ⟨htake, hdrop⟩ := span_append_cons isNameChar_newline text rest
    rw [afterAll_takeWhile_dropWhile] at ih
    rw [List.cons_append, lexemes, if_neg hc, if_neg hw, if_neg hb, htake, hdrop, ih]
    rfl

/-- The lexemes are the same piece of text, perhaps at different places. -/
structure Lexeme.SameText (lexeme lexeme' : Lexeme) : Prop where
  first : lexeme'.first = lexeme.first
  rest : lexeme'.rest = lexeme.rest

/-- Where a text stands decides only where its lexemes stand. -/
theorem lexemes_sameText (position position' : Text.Position) (text : List Char) :
    List.Forall₂ Lexeme.SameText (lexemes position text) (lexemes position' text) := by
  fun_induction lexemes position text generalizing position' with
  | case1 position =>
    rw [lexemes]
    exact .nil
  | case2 position text ih =>
    rw [lexemes, if_pos rfl]
    exact ih _
  | case3 position c text hc hw ih =>
    rw [lexemes, if_neg hc, if_pos hw]
    exact ih _
  | case4 position c text hc hw hb ih =>
    rw [lexemes, if_neg hc, if_neg hw, if_pos hb]
    exact .cons ⟨rfl, rfl⟩ (ih _)
  | case5 position c text hc hw hb ih =>
    rw [lexemes, if_neg hc, if_neg hw, if_neg hb]
    exact .cons ⟨rfl, rfl⟩ (ih _)

theorem Lexeme.SameText.kind? {lexeme lexeme' : Lexeme} (h : lexeme.SameText lexeme') {kind : Kind}
    (hk : lexeme.kind? = .ok kind) : lexeme'.kind? = .ok kind := by
  obtain ⟨first, rest, position⟩ := lexeme
  obtain ⟨first', rest', position'⟩ := lexeme'
  obtain ⟨hf, hr⟩ := h
  simp only at hf hr
  subst hf hr
  -- a place occurs only in the error of a lone quote mark
  unfold Lexeme.kind? at hk ⊢
  split
  next hb => simpa only [hb] using hk
  next hb =>
    simp only [hb] at hk
    split
    next hq =>
      rw [if_pos hq] at hk
      split
      next he =>
        rw [if_pos he] at hk
        cases hk
      next he => rwa [if_neg he] at hk
    next hq => rwa [if_neg hq] at hk

theorem mapM_token?_sameText {ls ls' : List Lexeme} (h : List.Forall₂ Lexeme.SameText ls ls')
    {tokens : List Token} (ht : ls.mapM Lexeme.token? = .ok tokens) :
    ∃ tokens', ls'.mapM Lexeme.token? = .ok tokens' ∧
      tokens'.map (·.kind) = tokens.map (·.kind) := by
  induction h generalizing tokens with
  | nil =>
    cases ht
    exact ⟨[], rfl, rfl⟩
  | @cons lexeme lexeme' ls ls' hs _ ih =>
    rw [List.mapM_cons] at ht ⊢
    cases hk : lexeme.kind? with
    | error fault =>
      rw [Lexeme.token?, hk] at ht
      cases ht
    | ok kind =>
      rw [Lexeme.token?, hk] at ht
      cases hl : ls.mapM Lexeme.token? with
      | error fault =>
        rw [hl] at ht
        cases ht
      | ok later =>
        rw [hl] at ht
        cases ht
        obtain ⟨later', hl', hkinds⟩ := ih hl
        refine ⟨⟨kind, lexeme'.position⟩ :: later', ?_, congrArg (kind :: ·) hkinds⟩
        rw [Lexeme.token?, hs.kind? hk, hl']
        rfl

end Token

/-- What two texts are read as is what they are read as together, the second one from another
place. -/
theorem tokenize_append_newline {first second : String} {tokens tokens' : List Token}
    (h : tokenize first = .ok tokens) (h' : tokenize second = .ok tokens') :
    ∃ rest, tokenize (first ++ "\n" ++ second) = .ok (tokens ++ rest) ∧
      rest.map (·.kind) = tokens'.map (·.kind) := by
  obtain ⟨hs, hn⟩ := tokenize_eq_ok_iff.1 h
  obtain ⟨hs', hn'⟩ := tokenize_eq_ok_iff.1 h'
  have hmoved := Token.lexemes_sameText ⟨1, 1⟩
    ((Text.Position.afterAll ⟨1, 1⟩ first.toList).after '\n') second.toList
  obtain ⟨rest, hr, hk⟩ := Token.mapM_token?_sameText hmoved hs'
  refine ⟨rest, tokenize_eq_ok_iff.2 ⟨?_, hn.append (hn'.of_kinds hk)⟩, hk⟩
  have htext : (first ++ "\n" ++ second).toList = first.toList ++ '\n' :: second.toList := by
    simp
  -- the first part is scanned from its own place, so its tokens are the very same
  rw [Token.scan, htext, Token.lexemes_append_newline, List.mapM_append]
  rw [Token.scan] at hs
  rw [hs, hr]
  rfl

namespace Eval
variable {call : Caller}

/-- Properly nested tokens run to their end before anything behind them begins. -/
theorem run_append {tokens : List Token} (h : Token.Nested tokens) (rest : List Token) :
    run call (tokens ++ rest) = run call tokens >>= fun _ => run call rest := by
  induction h with
  | nil =>
    rw [List.nil_append, run_nil, pure_bind]
  | @plain token after hb _ ih =>
    obtain ⟨kind, position⟩ := token
    rw [List.cons_append]
    cases kind with
    | number value => rw [run_number, run_number, ih, bind_assoc]
    | quoted name => rw [run_quoted, run_quoted, ih, bind_assoc]
    | word name => rw [run_word, run_word, ih, bind_assoc]
    | opener bracket => cases hb
    | closer bracket => cases hb
  | @enclosed bracket p q inner after hi _ _ ih =>
    -- the partner of the bracket is found in front of what has been added
    have hsplit := hi.splitAtCloser_append bracket q after
    have hsplit' := hi.splitAtCloser_append bracket q (after ++ rest)
    rw [List.cons_append, List.append_assoc, List.cons_append, run_opener call bracket p hsplit',
      run_opener call bracket p hsplit, ih, bind_assoc]

/-- As many levels are left behind the tokens as in front of them. -/
theorem room_of_evaluate {tokens : List Token} {s t : Session}
    (h : evaluate tokens s = .ok () t) : t.room = s.room := by
  have ha := (Log.Sound.evaluate tokens).accounts.ok h
  rw [Session.room, Session.room, ha.settings, ha.depth]

/-- The second part starts at the depth of the first one, with as many levels left. -/
theorem evaluate_append {tokens : List Token} (h : Token.Nested tokens) (rest : List Token) :
    evaluate (tokens ++ rest) = evaluate tokens >>= fun _ => evaluate rest := by
  funext s
  have happend : evaluate (tokens ++ rest) s =
      (run (callWithin s.room) tokens >>= fun _ => run (callWithin s.room) rest) s := by
    rw [evaluate, run_append h]
  rw [happend]
  cases hr : evaluate tokens s with
  | error error t =>
    rw [bind_of_error hr]
    exact bind_of_error hr
  | ok _ t =>
    rw [bind_of_ok hr, evaluate, room_of_evaluate hr]
    exact bind_of_ok hr

/-! The first of several tokens. -/

/-- A pair of braces pushes what it encloses. -/
theorem evaluate_quotation {body : List Token} (hb : Token.Nested body) (p q : Text.Position)
    (rest : List Token) (s : Session) :
    evaluate (⟨.opener .brace, p⟩ :: (body ++ ⟨.closer .brace, q⟩ :: rest)) s =
      evaluate rest (s.pushed (.quotation body)) := by
  have hpush : push (.quotation body) s = .ok () (s.pushed (.quotation body)) := rfl
  rw [evaluate, run_opener _ _ _ (hb.splitAtCloser_append .brace q rest), enclosed,
    bind_of_ok hpush]
  rfl

theorem evaluate_number (x : Float) (p : Text.Position) (rest : List Token) (s : Session) :
    evaluate (⟨.number x, p⟩ :: rest) s = evaluate rest (s.pushed (.number x)) := by
  have hpush : push (.number x) s = .ok () (s.pushed (.number x)) := rfl
  rw [evaluate, run_number, bind_of_ok hpush]
  rfl

theorem evaluate_single (name : String) (p : Text.Position) (s : Session) :
    evaluate [⟨.word name, p⟩] s = execute (callWithin s.room) name s := by
  rw [evaluate, run_single]

end Eval

namespace Log

theorem bind_append {x f f' g : Eval Unit} {first : Log x} {second : Log f} {both : Log f'}
    {last : Log g} (h : ∀ t, both t = second t ++ onward (fun _ : Unit => last) (f t))
    (s : Session) : bind first (fun _ : Unit => both) s = bind first (fun _ : Unit => second) s ++
      onward (fun _ : Unit => last) ((x >>= fun _ => f) s) := by
  cases hr : x s with
  | ok a t => rw [bind_of_ok hr, bind_of_ok hr, StackCalc.bind_of_ok hr, h, List.append_assoc]
  | error error t =>
    rw [bind_of_error hr, bind_of_error hr, StackCalc.bind_of_error hr, onward, List.append_nil]

/-- What lies behind properly nested tokens invokes what it invokes from where they have ended, and
nothing after an error. -/
theorem run_append {call : Caller} (log : CallLog call) {tokens : List Token}
    (h : Token.Nested tokens) (rest : List Token) (s : Session) :
    run log (tokens ++ rest) s =
      run log tokens s ++ onward (fun _ : Unit => run log rest) (Eval.run call tokens s) := by
  induction h generalizing s with
  | nil =>
    rw [List.nil_append, Eval.run_nil, run]
    rfl
  | @plain token after hb _ ih =>
    obtain ⟨kind, position⟩ := token
    rw [List.cons_append]
    cases kind with
    | number value =>
      rw [run, run, Eval.run_number]
      exact bind_append ih s
    | quoted name =>
      rw [run, run, Eval.run_quoted]
      exact bind_append ih s
    | word name =>
      rw [run, run, Eval.run_word]
      exact bind_append ih s
    | opener bracket => cases hb
    | closer bracket => cases hb
  | @enclosed bracket p q inner after hi _ _ ih =>
    have hsplit := hi.splitAtCloser_append bracket q after
    have hsplit' := hi.splitAtCloser_append bracket q (after ++ rest)
    rw [List.cons_append, List.append_assoc, List.cons_append, run_opener log bracket p hsplit',
      run_opener log bracket p hsplit, Eval.run_opener call bracket p hsplit]
    exact bind_append ih s

theorem evaluate_append_of_error {tokens : List Token} (h : Token.Nested tokens) (rest : List Token)
    {s t : Session} {error : EvalError} (he : Eval.evaluate tokens s = .error error t) :
    evaluate (tokens ++ rest) s = evaluate tokens s := by
  have hrun : Eval.run (Eval.callWithin s.room) tokens s = .error error t := he
  rw [evaluate, run_append _ h, hrun, onward, List.append_nil]
  rfl

end Log

open Eval

/-- For two sources that the reader accepts, loading both with a line feed between them does what
loading one after the other does: the result is the same, and the sessions differ only in the places
of the second part. If the first source fails, so do both, with the same error and in the same
session, and nothing of the second source has been run. -/
theorem load_concatenation {s : Session} (hs : s.Reachable) {first second : String}
    {tokens tokens' : List Token} (ht : tokenize first = .ok tokens)
    (ht' : tokenize second = .ok tokens') :
    ∃ rest, tokenize (first ++ "\n" ++ second) = .ok (tokens ++ rest) ∧
      rest.map (·.kind) = tokens'.map (·.kind) ∧
      match load first s with
      | .ok () t => SameResult Eq (load second t) (load (first ++ "\n" ++ second) s)
      | .error error t => load (first ++ "\n" ++ second) s = .error error t ∧
          Log.evaluate (tokens ++ rest) { s with depth := 0 } =
            Log.evaluate tokens { s with depth := 0 } := by
  obtain ⟨rest, hboth, hk⟩ := tokenize_append_newline ht ht'
  refine ⟨rest, hboth, hk, ?_⟩
  have hnested : Token.Nested tokens := (Token.isProgram_of_tokenize ht).nested
  rw [load_of_tokens hboth, evaluate_append hnested]
  cases hr : load first s with
  | ok a t =>
    have hwf : t.WellFormed := by
      have hwf := wellFormed_load first hs.wellFormed
      rwa [hr] at hwf
    rw [load_of_tokens ht] at hr
    -- the first part has come back to the outermost level, where the second one starts
    have hdepth : t.depth = 0 := ((Log.Sound.evaluate tokens).accounts.ok hr).depth
    have hrest : { t with depth := 0 } = t := by
      rw [← hdepth]
    show SameResult Eq (load second t) _
    rw [bind_of_ok hr, load_of_tokens ht', hrest]
    exact evaluate_sameUnplaced (.refl t) hwf (Token.isProgram_of_tokenize ht') hk
  | error error t =>
    rw [load_of_tokens ht] at hr
    exact ⟨bind_of_error hr, Log.evaluate_append_of_error hnested rest hr⟩

/-- An unknown word fails before the quotation on the next line is reached. -/
theorem load_unknown_newline : load ("ghost" ++ "\n" ++ "{ dup }") .bare =
    .error { kind := .unknownWord "ghost", word := some "ghost" } .bare := by
  have hfirst : tokenize "ghost" = .ok [⟨.word "ghost", ⟨1, 1⟩⟩] := by decide +kernel
  have hsecond : tokenize "{ dup }" = .ok
      [⟨.opener .brace, ⟨1, 1⟩⟩, ⟨.word "dup", ⟨1, 3⟩⟩, ⟨.closer .brace, ⟨1, 7⟩⟩] := by
    decide +kernel
  have hunbound : Session.bare.dictionary.lookup? "ghost" = none := by decide +kernel
  have hload : load "ghost" .bare =
      .error { kind := .unknownWord "ghost", word := some "ghost" } .bare := by
    rw [load_of_tokens hfirst, evaluate, run_word]
    exact bind_of_error (execute_unknown hunbound)
  obtain ⟨rest, -, -, hboth⟩ := load_concatenation .bare hfirst hsecond
  rw [hload] at hboth
  exact hboth.1

end StackCalc
