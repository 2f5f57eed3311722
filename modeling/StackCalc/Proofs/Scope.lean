import StackCalc.Proofs.Locality.Frame
import StackCalc.Proofs.Log.Evaluator
import StackCalc.Proofs.Nesting

/-!
Array scopes are isolated. Of the stack that a scope sets aside it takes the values that it draws,
and it depends on nothing else of it; everything further out is left as it was.
-/
namespace StackCalc

open Eval

section Equations
variable {body : List Token} (opening closing : Text.Position)

/-- The tokens of an array scope. -/
def Token.bracketed (opening closing : Text.Position) (body : List Token) : List Token :=
  ⟨.opener .square, opening⟩ :: (body ++ [⟨.closer .square, closing⟩])

theorem splitAtCloser_of_balanced (h : Token.checkNesting body = .ok ()) :
    Token.splitAtCloser 0 (body ++ [⟨.closer .square, closing⟩]) = some (body, []) :=
  Token.splitAtCloser_append_of_checkNestingFrom h .square closing []

theorem evaluate_bracketed (h : Token.checkNesting body = .ok ()) (s : Session) :
    evaluate (Token.bracketed opening closing body) s = arrayScope (evaluate body) s := by
  rw [evaluate, Token.bracketed,
    run_opener _ .square opening (splitAtCloser_of_balanced closing h), run_nil]
  show (arrayScope (evaluate body) >>= fun _ => pure ()) s = _
  rw [bind_pure_unit]

theorem log_bracketed (h : Token.checkNesting body = .ok ()) (s : Session) :
    Log.evaluate (Token.bracketed opening closing body) s =
      Log.evaluate body (scopeEntered s) := by
  rw [Log.evaluate, Token.bracketed,
    Log.run_opener _ .square opening (splitAtCloser_of_balanced closing h), Log.run]
  exact Log.bind_silent s

end Equations

/-- The world inside a scope, in which the stacks that it sets aside rest on `rest` and `rest'`. -/
def World.scope (s : Session) (rest rest' : List Value) : World :=
  { World.above s [] s.stack.mark with
    marked := True
    outer := ⟨rest, rest', False⟩ :: s.enclosing.map fun _ => Footing.none }

section Scope
variable {s t t' : Session} {moved rest rest' : List Value} {other outer : Stack}

theorem alike_scope (hs : s.stack.values = moved ++ rest) (ho : other.values = moved ++ rest') :
    Alike (.scope s rest rest') (scopeEntered s) (scopeEntered { s with stack := other }) where
  settings := rfl
  dictionary := rfl
  depth := rfl
  input := rfl
  output := ⟨[], (Output.after_nil _).symm, (Output.after_nil _).symm⟩
  stack := World.bears_of rfl fun _ => rfl
  enclosing := .cons ⟨⟨moved, hs, ho⟩, False.elim⟩ (Footing.bearsAll_none_refl s.enclosing)

/-- Where all of `rest` is left in the first run, all of `rest'` is left in the second. -/
theorem enclosing_of_alike_scope (h : Alike (.scope s rest rest') t t')
    (ht : t.enclosing = outer :: s.enclosing) (hv : outer.values = rest) :
    ∃ outer', t'.enclosing = outer' :: s.enclosing ∧ outer'.values = rest' := by
  have he := h.enclosing
  rw [ht] at he
  generalize t'.enclosing = ts at he ⊢
  cases he with
  | cons hb hr =>
    obtain ⟨upper, hu, hu'⟩ := hb.values
    have hnil : upper = [] := List.self_eq_append_left.1 (hv.symm.trans hu)
    rw [hnil, List.nil_append] at hu'
    rw [Footing.eq_of_bearsAll_none hr]
    exact ⟨_, rfl, hu'⟩

theorem not_dug_scope (ht : t.enclosing = outer :: s.enclosing) (hv : outer.values = rest) :
    ¬ Footing.Dug (World.scope s rest rest').outer t.enclosing := by
  rw [ht]
  intro hd
  cases hd with
  | here hh =>
    rw [outer.height_eq, hv] at hh
    exact Nat.lt_irrefl _ hh
  | there hd => exact Footing.not_dug_none hd

/-- The body of a scope runs in the same way above any other stack with the drawn values on top. -/
theorem body_of_other {body : List Token} (hr : evaluate body (scopeEntered s) = .ok () t)
    (ht : t.enclosing = outer :: s.enclosing) (hs : s.stack.values = moved ++ outer.values)
    (ho : other.values = moved ++ rest') :
    ∃ t' outer', evaluate body (scopeEntered { s with stack := other }) = .ok () t' ∧
      t'.enclosing = outer' :: s.enclosing ∧ outer'.values = rest' ∧
      t'.stack.fromBottom = t.stack.fromBottom ∧ t'.depth = t.depth ∧
      t'.dictionary = t.dictionary ∧ t'.input = t.input ∧ t'.output = t.output := by
  have ha := (Parallel.evaluate body).agree (alike_scope hs ho)
  rw [hr] at ha
  generalize evaluate body (scopeEntered { s with stack := other }) = r' at ha ⊢
  cases ha with
  | @ok _ _ t' hta =>
    obtain ⟨outer', he', hv'⟩ := enclosing_of_alike_scope hta ht rfl
    obtain ⟨content, hout, hout'⟩ := hta.output
    have hvalues : t'.stack.values = t.stack.values ++ [] := hta.stack.values_eq
    refine ⟨t', outer', rfl, he', hv', ?_, hta.depth, hta.dictionary, hta.input, ?_⟩
    · rw [Stack.fromBottom, hvalues, List.append_nil, Stack.fromBottom]
    · exact hout'.trans hout.symm
  -- all that was drawn lies above `rest`
  | dug hd => exact absurd hd (not_dug_scope ht rfl)

end Scope

/-- An array scope, whether it fails or not, leaves the depth and the stacks further out as they
were. Of the stack that it sets aside it removes the values that were drawn while it was the
innermost scope, in the order in which they were drawn; where it succeeds, it pushes what its own
stack holds as one sequence. Any other stack with the drawn values on top leads to the same sequence,
the same dictionary and the same output. -/
theorem arrayScope_isolated (s : Session) (body : List Token) (opening closing : Text.Position)
    (h : Token.checkNesting body = .ok ()) :
    ∃ rest, s.stack.values = drawnAt (s.enclosing.length + 1)
          (Log.evaluate (Token.bracketed opening closing body) s) ++ rest ∧
      match evaluate body (scopeEntered s), evaluate (Token.bracketed opening closing body) s with
      | .error error _, .error error' u => error' = error ∧ u.stack.values = rest ∧
          u.enclosing = s.enclosing ∧ u.depth = s.depth
      | .ok _ t, .ok _ u => u.stack.values = .sequence t.stack.fromBottom :: rest ∧
          u.enclosing = s.enclosing ∧ u.depth = s.depth ∧
          ∀ other rest', other.values = drawnAt (s.enclosing.length + 1)
              (Log.evaluate (Token.bracketed opening closing body) s) ++ rest' →
            ∃ u', evaluate (Token.bracketed opening closing body) { s with stack := other } =
                .ok () u' ∧
              u'.stack.values = .sequence t.stack.fromBottom :: rest' ∧
              u'.enclosing = s.enclosing ∧ u'.depth = s.depth ∧ u'.dictionary = u.dictionary ∧
              u'.input = u.input ∧ u'.output = u.output
      | _, _ => False := by
  rw [evaluate_bracketed opening closing h, log_bracketed opening closing h]
  have hsound : Log.Sound (Log.evaluate body) := .evaluate body
  obtain ⟨outer, he, hd⟩ := hsound.drawn_arrayScope s
  have hdepth := (hsound.accounts (scopeEntered s)).depth
  refine ⟨outer.values, hd.values_eq, ?_⟩
  cases hr : evaluate body (scopeEntered s) with
  | error error t =>
    rw [hr] at he hdepth
    rw [arrayScope_of_error hr he]
    exact ⟨rfl, rfl, rfl, hdepth⟩
  | ok _ t =>
    rw [hr] at he hdepth
    rw [arrayScope_of_ok hr he]
    refine ⟨rfl, rfl, hdepth, ?_⟩
    intro other rest' ho
    obtain ⟨t', outer', hr', he', rfl, hv, hdep, hdict, hin, hout⟩ :=
      body_of_other hr he hd.values_eq ho
    rw [evaluate_bracketed opening closing h, arrayScope_of_ok hr' he', hv]
    exact ⟨_, rfl, rfl, rfl, hdep.trans hdepth, hdict, hin, hout⟩

/-- A session with two values, in which `arg` draws. -/
def drawSession : Session where
  dictionary := Dictionary.empty.define "arg" (.primitive .draw)
  stack := .ofBottom [.reference "a", .reference "b"]

/-- A scope that draws once leaves the lower value, and the drawn one in a sequence. -/
theorem arrayScope_draws_top :
    Token.checkNesting [⟨.word "arg", ⟨1, 3⟩⟩] = .ok () ∧
      ∃ u, evaluate (Token.bracketed ⟨1, 1⟩ ⟨1, 7⟩ [⟨.word "arg", ⟨1, 3⟩⟩]) drawSession =
          .ok () u ∧
        u.stack.values = [.sequence [.reference "b"], .reference "a"] := by
  have hl : (scopeEntered drawSession).dictionary.lookup? "arg" = some (.primitive .draw) := by
    simp [scopeEntered, drawSession, Dictionary.lookup?_define]
  obtain ⟨t, hi, ht⟩ : ∃ t, invoke (callWithin (scopeEntered drawSession).room) .draw
      (scopeEntered drawSession) = .ok none t ∧ t.stack.fromBottom = [.reference "b"] :=
    ⟨_, rfl, rfl⟩
  have hx := execute_primitive_ok hl hi
  have hr : evaluate [⟨.word "arg", ⟨1, 3⟩⟩] (scopeEntered drawSession) = .ok () t := by
    rw [evaluate, run_word, bind_of_ok hx, run_nil]
    rfl
  have hlog : Log.evaluate [⟨.word "arg", ⟨1, 3⟩⟩] (scopeEntered drawSession) =
      [⟨.draw, scopeEntered drawSession⟩] := by
    rw [Log.evaluate, Log.run, Log.bind_of_ok hx, Log.execute,
      Log.executeFrom_last _ hl (by simp [hi]), Log.run]
    rfl
  refine ⟨rfl, ?_⟩
  obtain ⟨rest, hs, hu⟩ := arrayScope_isolated drawSession [⟨.word "arg", ⟨1, 3⟩⟩] ⟨1, 1⟩ ⟨1, 7⟩ rfl
  rw [log_bracketed _ _ rfl, hlog] at hs
  have hrest : [Value.reference "a"] = rest := List.cons_inj_right _ |>.1 hs
  rw [hr] at hu
  cases hv : evaluate (Token.bracketed ⟨1, 1⟩ ⟨1, 7⟩ [⟨.word "arg", ⟨1, 3⟩⟩]) drawSession with
  | error error u =>
    rw [hv] at hu
    exact hu.elim
  | ok _ u =>
    rw [hv] at hu
    refine ⟨u, rfl, ?_⟩
    rw [hu.1, ht, hrest]

end StackCalc
