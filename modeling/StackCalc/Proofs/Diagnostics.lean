import StackCalc.Proofs.Moments.Evaluation
import StackCalc.Proofs.Reachable

/-!
Errors say where the evaluation stood. The trace of an error names the calls that were open at the
moment it was raised, and the word that it blames is the innermost one that failed.
-/
namespace StackCalc

open Eval Moment

/-! Errors on their way out. -/

section Unwinding
variable {error : EvalError} {frames : List Frame} {s : Session}

/-- What the error says once it has left the frames. -/
def noted (frames : List Frame) (error : EvalError) : EvalError :=
  frames.foldl (fun error frame => frame.note error) error

theorem kind_noted (frames : List Frame) (error : EvalError) :
    (noted frames error).kind = error.kind := by
  induction frames generalizing error with
  | nil => rfl
  | cons frame rest ih =>
    apply (ih _).trans
    cases frame <;> rfl

theorem trace_noted (frames : List Frame) (error : EvalError) :
    (noted frames error).trace = error.trace ++ openCalls frames := by
  induction frames generalizing error with
  | nil => exact (List.append_nil _).symm
  | cons frame rest ih =>
    apply (ih _).trans
    cases frame with
    | call name => exact List.append_assoc error.trace [name] (openCalls rest)
    | _ => rfl

/-- Of nested words the innermost is kept. -/
theorem word_noted {word : String} (h : error.word = some word) (frames : List Frame) :
    (noted frames error).word = some word := by
  induction frames generalizing error with
  | nil => exact h
  | cons frame rest ih =>
    apply ih
    cases frame with
    | primitive name operation => simp only [Frame.note, EvalError.atWord, h, Option.some_or]
    | _ => exact h

/-- An error that has been raised leaves one frame after the other. -/
theorem Moment.Leads.unwinds {m : Moment} (h : Leads ⟨.raise error, frames, s⟩ m) :
    ∃ left, frames = left ++ m.frames ∧ m.task = .raise (noted left error) := by
  refine h.preserves (P := fun m => ∃ left, frames = left ++ m.frames ∧
    m.task = .raise (noted left error)) ⟨[], rfl, rfl⟩ ?_
  rintro m n - hadvance ⟨left, hf, ht⟩
  cases hadvance with
  | @unwound e frame rest u =>
    cases ht
    refine ⟨left ++ [frame], by rw [hf, List.append_assoc]; rfl, ?_⟩
    rw [noted, noted, List.foldl_append]
    rfl
  | _ => cases ht

end Unwinding

/-- An error is raised at the moment, where none has been on its way. -/
structure Moment.Raises (m : Moment) (raised : EvalError) (frames : List Frame) (s : Session) :
    Prop where
  calm : ∀ error, m.task ≠ .raise error
  step : m.step = some ⟨.raise raised, frames, s⟩

theorem Moment.Leads.exists_raises {start m : Moment} {error : EvalError} (h : start.Leads m)
    (hm : m.task = .raise error) (hcalm : ∀ error, start.task ≠ .raise error) :
    ∃ n raised frames s, start.Leads n ∧ n.Raises raised frames s ∧
      Leads ⟨.raise raised, frames, s⟩ m := by
  induction h generalizing error with
  | refl => exact absurd hm (hcalm error)
  | @tail m o hleads hstep ih =>
    by_cases hraised : ∃ error, m.task = .raise error
    · obtain ⟨earlier, he⟩ := hraised
      obtain ⟨n, raised, frames, s, hn, hr, hunwinds⟩ := ih he
      exact ⟨n, raised, frames, s, hn, hr, .tail hunwinds hstep⟩
    · obtain ⟨task, frames, s⟩ := o
      cases hm
      exact ⟨m, error, frames, s, hleads, ⟨fun e he => hraised ⟨e, he⟩, hstep⟩, .refl⟩

/-- There is one such moment in an evaluation. -/
theorem Moment.Raises.unique {start m n : Moment} {raised raised' : EvalError}
    {frames frames' : List Frame} {s s' : Session} (hm : start.Leads m)
    (hr : m.Raises raised frames s) (hn : start.Leads n) (hr' : n.Raises raised' frames' s') :
    n = m := by
  -- nothing that comes after a raised error is calm
  have hafter {m n : Moment} {raised : EvalError} {frames : List Frame} {s : Session}
      (hr : m.Raises raised frames s) (hcalm : ∀ error, n.task ≠ .raise error)
      (h : m.Leads n) : m = n := by
    rcases h.cases_head with heq | ⟨o, hstep, hrest⟩
    · exact heq
    · obtain rfl := Option.some.inj (hr.step.symm.trans hstep)
      obtain ⟨left, -, ht⟩ := Leads.unwinds hrest
      exact absurd ht (hcalm _)
  rcases hm.total hn with h | h
  · exact (hafter hr hr'.calm h).symm
  · exact hafter hr' hr.calm h

/-! Where frames come from. -/

/-- The innermost frame is that of a primitive called `name`, whatever word it was invoked under. -/
def UnderPrimitive (name : String) (frames : List Frame) : Prop :=
  ∃ word operation rest, frames = .primitive word operation :: rest ∧ operation.name = name

/-- How a call of `name` comes about inside the frames: a user word has been executed there, or a
combinator of that name calls its body, perhaps not for the first time. -/
inductive CalledAs (start : Moment) (name : String) : List Frame → Prop where
  | word {body : List Token} {frames : List Frame} {s : Session} :
      start.Leads ⟨.execute name, frames, s⟩ → s.dictionary.lookup? name = some (.user body) →
      CalledAs start name frames
  | body {frames : List Frame} : UnderPrimitive name frames → CalledAs start name frames
  | again {body : List Token} {count : Nat} {frames : List Frame} : UnderPrimitive name frames →
      CalledAs start name (.again name body count :: frames)
  | item {outer : Nat} {item : Value} {loop : Gathering} {frames : List Frame} :
      loop.frame = name → UnderPrimitive name frames →
      CalledAs start name (.watch outer item loop :: frames)

/-- How the frame has come to lie on the frames below it. -/
def Frame.OpenedOn (start : Moment) (frame : Frame) (below : List Frame) : Prop :=
  match frame with
  | call name => CalledAs start name below
  | primitive name operation => ∃ s : Session, start.Leads ⟨.execute name, below, s⟩ ∧
      s.dictionary.lookup? name = some (.primitive operation)
  | again name _ _ => UnderPrimitive name below
  | watch _ _ loop => UnderPrimitive loop.frame below
  | _ => True

/-- The task is done for what lies around it. -/
def Task.BelongsTo (start : Moment) (frames : List Frame) : Task → Prop
  | proceed (.call name _) => CalledAs start name frames
  | proceed (.again name _ _) => UnderPrimitive name frames
  | proceed (.gather loop) => UnderPrimitive loop.frame frames
  | _ => True

/-- Every frame has been opened where it lies, and what is done belongs to what lies around it. -/
structure Moment.Ordered (start m : Moment) : Prop where
  task : m.task.BelongsTo start m.frames
  frames : Stacked (Frame.OpenedOn start) m.frames

theorem Moment.Ordered.advance {start m n : Moment} (hm : start.Leads m) (h : Advance m n)
    (ho : Ordered start m) : Ordered start n := by
  obtain ⟨htask, hframes⟩ := ho
  cases h with
  | word => exact ⟨trivial, trivial, hframes⟩
  | scope => exact ⟨trivial, trivial, trivial, hframes⟩
  | user hl => exact ⟨.word hm hl, hframes⟩
  | @primitive name operation sequel frames s t hl hs =>
    refine ⟨?_, ⟨s, hm, hl⟩, hframes⟩
    have hunder : UnderPrimitive operation.name (.primitive name operation :: frames) :=
      ⟨name, operation, frames, rfl, rfl⟩
    -- a combinator calls under its own name, whatever word it was invoked under
    obtain ⟨hof, -⟩ := (Plain.start operation).of_ok s.meets_any hs
    cases sequel with
    | call frame body =>
      obtain ⟨rfl, -⟩ := hof
      exact .body hunder
    | again frame body count =>
      obtain ⟨rfl, -⟩ := hof
      exact hunder
    | gather loop =>
      rw [Task.BelongsTo, hof.1]
      exact hunder
    | _ => exact trivial
  | @failed name operation error frames s t hl hs => exact ⟨trivial, ⟨s, hm, hl⟩, hframes⟩
  | entered => exact ⟨trivial, htask, hframes⟩
  | again => exact ⟨.again htask, htask, hframes⟩
  | offered => exact ⟨.item rfl htask, htask, hframes⟩
  | applied => exact ⟨trivial, trivial, hframes⟩
  | repeats | accepted => exact ⟨hframes.1, hframes.2⟩
  | onward | returned | built | invoked | executed | rejected | unwound =>
    exact ⟨trivial, hframes.2⟩
  | _ => exact ⟨trivial, hframes⟩

/-! The word that an error blames. -/

/-- What has failed at the moment `m`, inside the frames and with the session `u`: an unbound word
was executed, a frame could not be opened, or the primitive of the innermost frame failed, by itself
or over what a body left. -/
inductive Moment.Blames (start m : Moment) (frames : List Frame) (u : Session) (limit : Nat) :
    ErrorKind → String → Prop where
  | unbound {name : String} : m.task = .execute name → u.dictionary.lookup? name = none →
      Blames start m frames u limit (.unknownWord name) name
  | refused {name : String} {body : List Token} : m.task = .proceed (.call name body) →
      limit ≤ u.depth → Blames start m frames u limit (.recursionLimit limit) name
  | primitive {name : String} {operation : Primitive} {below : List Frame} {s : Session}
      {kind : ErrorKind} : frames = .primitive name operation :: below →
      start.Leads ⟨.execute name, below, s⟩ →
      s.dictionary.lookup? name = some (.primitive operation) →
      (∀ limit, kind ≠ .recursionLimit limit) → Blames start m frames u limit kind name

/-- What an error says that is raised, and the word that it has or is to take. -/
structure Moment.Found (start m : Moment) (raised : EvalError) (frames : List Frame) (u : Session)
    (limit : Nat) : Prop where
  trace : raised.trace = []
  word : ∃ name, (noted frames raised).word = some name ∧
    Blames start m frames u limit raised.kind name

/-- A bracket without a partner has been met. -/
def ErrorKind.IsBracketFault : ErrorKind → Prop
  | .parse (.unexpectedCloser _ _) | .parse (.unclosed _ _) => True
  | _ => False

section Found
variable {start m : Moment} {raised : EvalError} {u : Session} {limit : Nat}

/-- A primitive adds the name it was invoked under to an error without a word. -/
theorem Moment.Found.of_fresh {name : String} {operation : Primitive} {below : List Frame}
    (hraised : raised.Fresh fun kind => ∀ limit, kind ≠ .recursionLimit limit)
    (hopened : Frame.OpenedOn start (.primitive name operation) below) :
    Found start m raised (.primitive name operation :: below) u limit := by
  obtain ⟨s, hs, hl⟩ := hopened
  refine ⟨hraised.trace, name, word_noted ?_ below, .primitive rfl hs hl hraised.kind⟩
  simp only [Frame.note, EvalError.atWord, hraised.word, Option.none_or]

/-- An error has a word, or is to take one, unless a bracket has no partner. -/
theorem Moment.Raises.found_or_unmatched {frames : List Frame} (h : m.Raises raised frames u)
    (hm : start.Leads m) (ho : Ordered start m) (hlimit : m.session.settings.maxDepth = limit) :
    Found start m raised frames u limit ∨
      raised.kind.IsBracketFault ∧ ∃ tokens, m.task = .run tokens ∧ ¬ Token.Nested tokens := by
  have hopened := (Ordered.advance hm (advance_of_step h.step) ho).frames
  have hcalm := h.calm
  cases advance_of_step h.step with
  | closer => exact .inr ⟨trivial, _, rfl, Token.Nested.not_closer⟩
  | unclosed hsplit =>
    refine .inr ⟨trivial, _, rfl, fun hn => ?_⟩
    obtain ⟨_, _, _, -, -, -, hparts⟩ := hn.splitAtCloser
    cases hsplit.symm.trans hparts
  | @unknown name frames s hl => exact .inl ⟨rfl, name, word_noted rfl frames, .unbound rfl hl⟩
  | @failed name operation error below s t hl hs =>
    have hplain := (Plain.start (S := .any) operation).mono fun _ =>
      ErrorKind.IsOwn.ne_recursionLimit
    exact .inl (.of_fresh (hplain.of_error s.meets_any hs).1 hopened.1)
  | @refused name body frames s hd =>
    subst hlimit
    exact .inl ⟨rfl, name, word_noted rfl frames, .refused rfl hd⟩
  | @rejected outer item loop error frames s t ha =>
    -- the combinator that watches the body lies right below
    obtain ⟨⟨name, operation, below, rfl, -⟩, -⟩ := ho.frames
    have hfresh := ((Plain.accept _ _).of_error (watchLeft outer s).meets_any ha).1
    exact .inl (.of_fresh hfresh hopened.1)
  | unwound => exact absurd rfl (hcalm _)

theorem Moment.Raises.found {frames : List Frame} (h : m.Raises raised frames u)
    (hm : start.Leads m) (ho : Ordered start m) (hlimit : m.session.settings.maxDepth = limit)
    (hkind : ¬ raised.kind.IsBracketFault) : Found start m raised frames u limit :=
  (h.found_or_unmatched hm ho hlimit).resolve_right fun hunmatched => hkind hunmatched.1

end Found

/-- What an error tells of the moment `m` at which it was raised inside the frames, where the
session had become `u`. -/
structure Diagnosed (start m : Moment) (frames : List Frame) (u : Session) (limit : Nat)
    (error : EvalError) : Prop where
  trace : error.trace = openCalls frames
  calls : ∀ above name below, frames = above ++ .call name :: below → CalledAs start name below
  depth : error.trace.length = u.depth
  bound : u.depth ≤ limit
  refusal : ∀ l, error.kind = .recursionLimit l → l = limit ∧ error.trace.length = limit
  word : ∃ name, error.word = some name ∧ Blames start m frames u limit error.kind name

theorem Moment.Leads.ordered {tokens : List Token} {s : Session} {m : Moment}
    (h : (outset tokens s).Leads m) : Ordered (outset tokens s) m :=
  h.preserves ⟨trivial, trivial⟩ Ordered.advance

/-- The brackets of a program that has tokens match. -/
theorem not_isBracketFault_of_load {s t : Session} (hs : s.Reachable) {source : String}
    {tokens : List Token} {error : EvalError} (ht : tokenize source = .ok tokens)
    (hl : load source s = .error error t) : ¬ error.kind.IsBracketFault := by
  have hsafe := safeResult_load ht hs.wellFormed
  rw [hl] at hsafe
  cases hsafe with
  | error h =>
    intro hfault
    unfold ErrorKind.IsBracketFault at hfault
    -- the only fault of a text that is left is a line of the input that is no number
    split at hfault
    next hk =>
      obtain ⟨_, _, _, _, hf⟩ := h.1.input _ hk
      cases hf
    next hk =>
      obtain ⟨_, _, _, _, hf⟩ := h.1.input _ hk
      cases hf
    next => exact hfault

/-- Errors are faithful. If a source that has tokens fails, there is one moment of its evaluation at
which the error was raised. The trace lists the names of the calls that were open then, the
innermost first: of user words the name that was executed, and of bodies that of the combinator. So
it is as long as the calls were deep, and never longer than the limit allows; the limit is blamed
only by a call that met it, with as many calls open as it allows. The word is always there. It is
the unbound name that was executed, the frame that could not be opened, or else the name under which
the primitive of the innermost frame was invoked. -/
theorem diagnosis_of_load {s : Session} (hs : s.Reachable) {source : String} {tokens : List Token}
    {error : EvalError} {t : Session} (ht : tokenize source = .ok tokens)
    (hl : load source s = .error error t) :
    ∃ m raised frames u, (outset tokens s).Leads m ∧ m.Raises raised frames u ∧
      Leads ⟨.raise raised, frames, u⟩ ⟨.raise error, [], t⟩ ∧
      (∀ n raised' frames' u', (outset tokens s).Leads n → n.Raises raised' frames' u' → n = m) ∧
      Diagnosed (outset tokens s) m frames u s.settings.maxDepth error := by
  have hend := leads_load ht s
  rw [hl] at hend
  obtain ⟨m, raised, frames, u, hm, hr, hunwinds⟩ := hend.exists_raises rfl nofun
  refine ⟨m, raised, frames, u, hm, hr, hunwinds, fun n _ _ _ hn hr' => hr.unique hm hn hr', ?_⟩
  -- what has become of the error on its way out
  obtain ⟨left, hleft, herror⟩ := Leads.unwinds hunwinds
  obtain rfl : frames = left := hleft.trans (List.append_nil left)
  obtain rfl : error = noted frames raised := Task.raise.inj herror
  have hafter : (outset tokens s).Leads ⟨.raise raised, frames, u⟩ := .tail hm hr.step
  have hkind : ¬ raised.kind.IsBracketFault :=
    kind_noted frames raised ▸ not_isBracketFault_of_load hs ht hl
  have hfound := hr.found hm hm.ordered (congrArg Settings.maxDepth hm.level.settings) hkind
  have htrace : (noted frames raised).trace = openCalls frames := by
    rw [trace_noted, hfound.trace, List.nil_append]
  have hdepth : (noted frames raised).trace.length = u.depth := by
    rw [htrace]
    exact hafter.level.depth.symm
  have hbound : u.depth ≤ s.settings.maxDepth := hafter.level.limit
  obtain ⟨name, hname, hblames⟩ := hfound.word
  refine ⟨htrace, fun above name below hsplit => ?_, hdepth, hbound, fun l hk => ?_,
    name, hname, ?_⟩
  · have hopened := hafter.ordered.frames
    rw [hsplit] at hopened
    exact hopened.at
  · rw [kind_noted] at hk
    rw [hk] at hblames
    -- no primitive blames a limit, so a call has been refused
    cases hblames with
    | refused _ hd => exact ⟨rfl, hdepth.trans (Nat.le_antisymm hbound hd)⟩
    | primitive _ _ _ hfresh => exact absurd rfl (hfresh l)
  · rw [kind_noted]
    exact hblames

/-- The quotation that `apply` calls finds nothing on the stack. -/
theorem diagnosis_of_apply : ∃ tokens error, Session.bare.Reachable ∧
    tokenize "{ pop } apply" = .ok tokens ∧ load "{ pop } apply" .bare = .error error .bare ∧
    error = { kind := .stackUnderflow 1 0, word := some "pop", trace := ["apply"] } ∧
    ∃ m raised frames u, (outset tokens .bare).Leads m ∧ m.Raises raised frames u ∧
      Leads ⟨.raise raised, frames, u⟩ ⟨.raise error, [], .bare⟩ ∧
      (∀ n raised' frames' u', (outset tokens .bare).Leads n →
        n.Raises raised' frames' u' → n = m) ∧
      Diagnosed (outset tokens .bare) m frames u Session.bare.settings.maxDepth error := by
  have htokens : tokenize "{ pop } apply" = .ok [⟨.opener .brace, ⟨1, 1⟩⟩, ⟨.word "pop", ⟨1, 3⟩⟩,
      ⟨.closer .brace, ⟨1, 7⟩⟩, ⟨.word "apply", ⟨1, 9⟩⟩] := by decide +kernel
  have happly : Session.bare.dictionary.lookup? "apply" = some (.primitive .apply) := by
    decide +kernel
  have hpop : Session.bare.dictionary.lookup? "pop" = some (.primitive .drop) := by decide +kernel
  -- the session inside the call, and the one before it
  let inside : Session := { Session.bare with depth := 1 }
  let before := Session.bare.pushed (.quotation [⟨.word "pop", ⟨1, 3⟩⟩])
  have hbody : run (callWithin 999) [⟨.word "pop", ⟨1, 3⟩⟩] inside =
      .error { kind := .stackUnderflow 1 0, word := some "pop" } inside := by
    have hfails : start .drop inside = .error { kind := .stackUnderflow 1 0 } inside := rfl
    rw [run_word]
    exact bind_of_error (execute_of_error (s := inside) hpop hfails)
  have hcall : execute (callWithin 1000) "apply" before =
      .error { kind := .stackUnderflow 1 0, word := some "pop", trace := ["apply"] } .bare := by
    have hstart : start .apply before = .ok (.call "apply" [⟨.word "pop", ⟨1, 3⟩⟩]) .bare := rfl
    apply (execute_of_only (s := before) happly hstart rfl).trans
    exact congrArg (nameWord "apply") (inFrame_of_error hbody)
  have hload : load "{ pop } apply" .bare =
      .error { kind := .stackUnderflow 1 0, word := some "pop", trace := ["apply"] } .bare := by
    rw [load_of_tokens htokens]
    show run (callWithin 1000) _ .bare = _
    rw [run_opener _ .brace _ rfl]
    apply (bind_of_ok (t := before) rfl).trans
    rw [run_word]
    exact bind_of_error hcall
  exact ⟨_, _, .bare, htokens, hload, rfl, diagnosis_of_load .bare htokens hload⟩

end StackCalc
