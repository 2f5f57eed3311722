import StackCalc.Proofs.Primitives

/-!
What a step of an evaluation can do, said once for everything that is to hold from moment to moment.
-/
namespace StackCalc

open Eval

namespace Moment

/-- The next moment comes of one of these. -/
inductive Advance : Moment → Moment → Prop where
  | number {value : Float} {position : Text.Position} {rest : List Token} {frames : List Frame}
      {s : Session} : Advance ⟨.run (⟨.number value, position⟩ :: rest), frames, s⟩
        ⟨.run rest, frames, s.pushed (.number value)⟩
  | quoted {name : String} {position : Text.Position} {rest : List Token} {frames : List Frame}
      {s : Session} : Advance ⟨.run (⟨.quoted name, position⟩ :: rest), frames, s⟩
        ⟨.run rest, frames, s.pushed (.reference name)⟩
  | word {name : String} {position : Text.Position} {rest : List Token} {frames : List Frame}
      {s : Session} : Advance ⟨.run (⟨.word name, position⟩ :: rest), frames, s⟩
        ⟨.execute name, .rest rest :: frames, s⟩
  | closer {bracket : Bracket} {position : Text.Position} {rest : List Token}
      {frames : List Frame} {s : Session} :
      Advance ⟨.run (⟨.closer bracket, position⟩ :: rest), frames, s⟩
        ⟨.raise { kind := .parse (.unexpectedCloser bracket position) }, frames, s⟩
  | unclosed {bracket : Bracket} {position : Text.Position} {rest : List Token}
      {frames : List Frame} {s : Session} : Token.splitAtCloser 0 rest = none →
      Advance ⟨.run (⟨.opener bracket, position⟩ :: rest), frames, s⟩
        ⟨.raise { kind := .parse (.unclosed bracket position) }, frames, s⟩
  | quotation {position : Text.Position} {rest body after : List Token} {frames : List Frame}
      {s : Session} : Token.splitAtCloser 0 rest = some (body, after) →
      Advance ⟨.run (⟨.opener .brace, position⟩ :: rest), frames, s⟩
        ⟨.run after, frames, s.pushed (.quotation body)⟩
  | scope {position : Text.Position} {rest body after : List Token} {frames : List Frame}
      {s : Session} : Token.splitAtCloser 0 rest = some (body, after) →
      Advance ⟨.run (⟨.opener .square, position⟩ :: rest), frames, s⟩
        ⟨.run body, .scope :: .rest after :: frames, scopeEntered s⟩
  | ran {frames : List Frame} {s : Session} : Advance ⟨.run [], frames, s⟩ (finished frames s)
  | unknown {name : String} {frames : List Frame} {s : Session} :
      s.dictionary.lookup? name = none → Advance ⟨.execute name, frames, s⟩
        ⟨.raise { kind := .unknownWord name, word := some name }, frames, s⟩
  | user {name : String} {body : List Token} {frames : List Frame} {s : Session} :
      s.dictionary.lookup? name = some (.user body) →
      Advance ⟨.execute name, frames, s⟩ ⟨.proceed (.call name body), frames, s⟩
  | primitive {name : String} {operation : Primitive} {sequel : Sequel} {frames : List Frame}
      {s t : Session} : s.dictionary.lookup? name = some (.primitive operation) →
      start operation s = .ok sequel t →
      Advance ⟨.execute name, frames, s⟩
        ⟨.proceed sequel, .primitive name operation :: frames, t⟩
  | failed {name : String} {operation : Primitive} {error : EvalError} {frames : List Frame}
      {s t : Session} : s.dictionary.lookup? name = some (.primitive operation) →
      start operation s = .error error t →
      Advance ⟨.execute name, frames, s⟩ ⟨.raise error, .primitive name operation :: frames, t⟩
  | refused {name : String} {body : List Token} {frames : List Frame} {s : Session} :
      s.settings.maxDepth ≤ s.depth → Advance ⟨.proceed (.call name body), frames, s⟩
        ⟨.raise { kind := .recursionLimit s.settings.maxDepth, word := some name }, frames, s⟩
  | entered {name : String} {body : List Token} {frames : List Frame} {s : Session} :
      s.depth < s.settings.maxDepth → Advance ⟨.proceed (.call name body), frames, s⟩
        ⟨.run body, .call name :: frames, { s with depth := s.depth + 1 }⟩
  | repeated {name : String} {body : List Token} {frames : List Frame} {s : Session} :
      Advance ⟨.proceed (.again name body 0), frames, s⟩ (finished frames s)
  | again {name : String} {body : List Token} {count : Nat} {frames : List Frame} {s : Session} :
      Advance ⟨.proceed (.again name body (count + 1)), frames, s⟩
        ⟨.proceed (.call name body), .again name body count :: frames, s⟩
  | gathered {frame : String} {body : List Token} {base : Nat} {harvest : Harvest}
      {frames : List Frame} {s : Session} :
      Advance ⟨.proceed (.gather ⟨frame, body, base, harvest, []⟩), frames, s⟩
        (finished frames (s.pushed harvest.yield))
  | offered {frame : String} {body : List Token} {base : Nat} {harvest : Harvest} {item : Value}
      {items : List Value} {frames : List Frame} {s : Session} :
      Advance ⟨.proceed (.gather ⟨frame, body, base, harvest, item :: items⟩), frames, s⟩
        ⟨.proceed (.call frame body),
          .watch s.stack.mark item ⟨frame, body, base, harvest, items⟩ :: frames,
          watchEntered (harvest.offer item s)⟩
  | applied {name : String} {frames : List Frame} {s : Session} :
      Advance ⟨.proceed (.word name), frames, s⟩ ⟨.execute name, .applied :: frames, s⟩
  | onward {tokens : List Token} {frames : List Frame} {s : Session} :
      Advance (finished (.rest tokens :: frames) s) ⟨.run tokens, frames, s⟩
  | returned {name : String} {frames : List Frame} {s : Session} :
      Advance (finished (.call name :: frames) s)
        (finished frames { s with depth := s.depth - 1 })
  | built {frames : List Frame} {s : Session} : Advance (finished (.scope :: frames) s)
      (finished frames ((scopeLeft s).pushed (.sequence s.stack.fromBottom)))
  | invoked {name : String} {operation : Primitive} {frames : List Frame} {s : Session} :
      Advance (finished (.primitive name operation :: frames) s) (finished frames s)
  | executed {frames : List Frame} {s : Session} :
      Advance (finished (.applied :: frames) s) (finished frames s)
  | repeats {name : String} {body : List Token} {count : Nat} {frames : List Frame}
      {s : Session} : Advance (finished (.again name body count :: frames) s)
        ⟨.proceed (.again name body count), frames, s⟩
  | accepted {outer : Nat} {item result : Value} {loop : Gathering} {frames : List Frame}
      {s t : Session} : accept s.stack.mark loop.base (watchLeft outer s) = .ok result t →
      Advance (finished (.watch outer item loop :: frames) s)
        ⟨.proceed (.gather { loop with harvest := loop.harvest.bringIn item result }), frames, t⟩
  | rejected {outer : Nat} {item : Value} {loop : Gathering} {error : EvalError}
      {frames : List Frame} {s t : Session} :
      accept s.stack.mark loop.base (watchLeft outer s) = .error error t →
      Advance (finished (.watch outer item loop :: frames) s) ⟨.raise error, frames, t⟩
  | unwound {error : EvalError} {frame : Frame} {frames : List Frame} {s : Session} :
      Advance ⟨.raise error, frame :: frames, s⟩
        ⟨.raise (frame.note error), frames, frame.leave s⟩

theorem advance_runStep (tokens : List Token) (frames : List Frame) (s : Session) :
    Advance ⟨.run tokens, frames, s⟩ (runStep frames s tokens) := by
  cases tokens with
  | nil => exact .ran
  | cons token rest =>
    obtain ⟨kind, position⟩ := token
    cases kind with
    | number value => exact .number
    | quoted name => exact .quoted
    | word name => exact .word
    | closer bracket => exact .closer
    | opener bracket =>
      cases h : Token.splitAtCloser 0 rest with
      | none =>
        simp only [runStep, h]
        exact .unclosed h
      | some parts =>
        cases bracket with
        | brace =>
          simp only [runStep, h]
          exact .quotation h
        | square =>
          simp only [runStep, h]
          exact .scope h

theorem advance_executeStep (name : String) (frames : List Frame) (s : Session) :
    Advance ⟨.execute name, frames, s⟩ (executeStep frames s name) := by
  rw [executeStep]
  cases h : s.dictionary.lookup? name with
  | none => exact .unknown h
  | some definition =>
    cases definition with
    | user body => exact .user h
    | primitive operation =>
      simp only
      cases hs : start operation s with
      | ok sequel t => exact .primitive h hs
      | error error t => exact .failed h hs

theorem advance_resume (frame : Frame) (frames : List Frame) (s : Session) :
    Advance (finished (frame :: frames) s) (resume frames s frame) := by
  cases frame with
  | rest tokens => exact .onward
  | call name => exact .returned
  | scope => exact .built
  | primitive name operation => exact .invoked
  | applied => exact .executed
  | again name body count => exact .repeats
  | watch outer item loop =>
    rw [resume]
    cases h : accept s.stack.mark loop.base (watchLeft outer s) with
    | ok result t => exact .accepted h
    | error error t => exact .rejected h

theorem advance_of_step {m n : Moment} (h : m.step = some n) : Advance m n := by
  obtain ⟨task, frames, s⟩ := m
  cases task with
  | run tokens =>
    cases h
    exact advance_runStep tokens frames s
  | execute name =>
    cases h
    exact advance_executeStep name frames s
  | raise error =>
    cases frames with
    | nil => cases h
    | cons frame frames =>
      cases h
      exact .unwound
  | proceed sequel =>
    cases sequel with
    | finished =>
      cases frames with
      | nil => cases h
      | cons frame frames =>
        cases h
        exact advance_resume frame frames s
    | call name body =>
      cases h
      by_cases hd : s.settings.maxDepth ≤ s.depth
      · rw [callStep, if_pos hd]
        exact .refused hd
      · rw [callStep, if_neg hd]
        exact .entered (Nat.lt_of_not_le hd)
    | again name body count => cases count <;> cases h <;> constructor
    | gather loop =>
      obtain ⟨frame, body, base, harvest, items⟩ := loop
      cases items <;> cases h <;> constructor
    | word name =>
      cases h
      exact .applied

/-- The evaluation comes from the one moment to the other. -/
def Leads : Moment → Moment → Prop :=
  Relation.ReflTransGen fun m n => m.step = some n

theorem Leads.of_step {m n : Moment} (h : m.step = some n) : m.Leads n :=
  .single h

theorem Leads.cons {m n o : Moment} (h : m.step = some n) (hn : n.Leads o) : m.Leads o :=
  .head h hn

theorem Leads.trans {m n o : Moment} (h : m.Leads n) (hn : n.Leads o) : m.Leads o :=
  Relation.ReflTransGen.trans h hn

/-- What every step preserves holds from the start on. -/
theorem Leads.preserves {P : Moment → Prop} {start m : Moment} (h : start.Leads m)
    (hstart : P start) (hstep : ∀ {m n}, start.Leads m → Advance m n → P m → P n) : P m := by
  induction h with
  | refl => exact hstart
  | tail hm hs ih => exact hstep hm (advance_of_step hs) ih

/-- Of two moments of one evaluation one comes before the other. -/
theorem Leads.total {start m n : Moment} (hm : start.Leads m) (hn : start.Leads n) :
    m.Leads n ∨ n.Leads m := by
  refine Relation.ReflTransGen.total_of_right_unique ?_ hm hn
  intro m n o hn ho
  exact Option.some.inj (hn.symm.trans ho)

/-- What holds at the last moment holds from it on. -/
theorem forall_of_end {P : Moment → Prop} {m : Moment} (hs : m.step = none) (hm : P m) :
    ∀ o, m.Leads o → P o := by
  intro o ho
  rcases Relation.ReflTransGen.cases_head ho with rfl | ⟨n, hn, -⟩
  · exact hm
  · cases hs.symm.trans hn

/-- What holds at a moment, and from the next one on, holds from it on. -/
theorem forall_of_step {P : Moment → Prop} {m n : Moment} (hs : m.step = some n) (hm : P m)
    (hn : ∀ o, n.Leads o → P o) : ∀ o, m.Leads o → P o := by
  intro o ho
  rcases Relation.ReflTransGen.cases_head ho with rfl | ⟨n', hn', hrest⟩
  · exact hm
  · cases hs.symm.trans hn'
    exact hn o hrest

/-- The moment that comes `count` steps later, or the last one when the evaluation ends before. -/
def later : Nat → Moment → Moment
  | 0, m => m
  | count + 1, m =>
    match m.step with
    | none => m
    | some n => later count n

theorem later_of_step {m n : Moment} (h : m.step = some n) (count : Nat) :
    m.later (count + 1) = n.later count := by
  rw [later, h]

theorem leads_later (count : Nat) (m : Moment) : m.Leads (m.later count) := by
  induction count generalizing m with
  | zero => exact .refl
  | succ count ih =>
    cases hs : m.step with
    | none =>
      rw [later, hs]
      exact .refl
    | some n =>
      rw [later_of_step hs]
      exact .cons hs (ih n)

/-- What holds at every moment up to the last one holds throughout the evaluation. -/
theorem forall_of_later {P : Moment → Prop} {m : Moment} (count : Nat)
    (hend : (m.later count).step = none) (h : ∀ k ≤ count, P (m.later k)) :
    ∀ o, m.Leads o → P o := by
  -- on the count, for any moment: after a step there is one step less to go
  induction count generalizing m with
  | zero => exact forall_of_end hend (h 0 (Nat.le_refl 0))
  | succ count ih =>
    have hm : P m := h 0 (Nat.zero_le _)
    cases hs : m.step with
    | none => exact forall_of_end hs hm
    | some n =>
      rw [later_of_step hs] at hend
      refine forall_of_step hs hm (ih hend fun k hk => ?_)
      rw [← later_of_step hs]
      exact h (k + 1) (Nat.succ_le_succ hk)

end Moment

open Moment

/-- The name of the call that the frame stands for. -/
def Frame.call? : Frame → Option String
  | call name => some name
  | _ => none

/-- The names of the calls that are open, the innermost first. -/
def openCalls (frames : List Frame) : List String :=
  frames.filterMap Frame.call?

/-- Each of the frames is related to the list of those below it. -/
def Stacked (R : Frame → List Frame → Prop) : List Frame → Prop
  | [] => True
  | frame :: below => R frame below ∧ Stacked R below

theorem Stacked.at {R : Frame → List Frame → Prop} {above below : List Frame} {frame : Frame}
    (h : Stacked R (above ++ frame :: below)) : R frame below := by
  induction above with
  | nil => exact h.1
  | cons top rest ih => exact ih h.2

/-- The session has the settings that the evaluation started with, its depth is the number of open
calls, and they are within the limit. -/
structure Moment.Level (host : Settings) (m : Moment) : Prop where
  settings : m.session.settings = host
  depth : m.session.depth = (openCalls m.frames).length
  limit : m.session.depth ≤ host.maxDepth

namespace Moment.Level
variable {host : Settings} {m n : Moment}

/-- No call is opened or closed. -/
theorem of_beside (h : m.Level host) (reads writes : Prop)
    (hs : m.session.Beside reads writes n.session) (hf : openCalls n.frames = openCalls m.frames) :
    n.Level host where
  settings := hs.settings.trans h.settings
  depth := by rw [hs.depth, hf, h.depth]
  limit := by
    rw [hs.depth]
    exact h.limit

theorem of_plain {α : Type} (h : m.Level host) {reads writes : Prop} {K : ErrorKind → Prop}
    {P : α → Prop} {x : Eval α} (hx : Plain .any reads writes K P x) {s : Session}
    (hs : m.session.Beside reads writes s) (hn : n.session = finalState (x s))
    (hf : openCalls n.frames = openCalls m.frames) : n.Level host := by
  refine h.of_beside reads writes (hs.trans ?_) hf
  rw [hn]
  exact hx.beside s

theorem advance (h : Advance m n) (hm : m.Level host) : n.Level host := by
  cases h with
  | @offered frame body base harvest item items frames s =>
    refine hm.of_beside True True ?_ rfl
    cases harvest <;> exact ⟨rfl, rfl, fun _ => rfl, fun _ => rfl⟩
  | primitive hl hs => exact hm.of_plain (Plain.start _) (.refl _) (by rw [hs]; rfl) rfl
  | failed hl hs => exact hm.of_plain (Plain.start _) (.refl _) (by rw [hs]; rfl) rfl
  | @accepted outer item result loop frames s t ha =>
    have hleft : s.Beside False False (watchLeft outer s) :=
      ⟨rfl, rfl, fun _ => rfl, fun _ => rfl⟩
    exact hm.of_plain (Plain.accept _ _) hleft (by rw [ha]; rfl) rfl
  | @rejected outer item loop error frames s t ha =>
    have hleft : s.Beside False False (watchLeft outer s) :=
      ⟨rfl, rfl, fun _ => rfl, fun _ => rfl⟩
    exact hm.of_plain (Plain.accept _ _) hleft (by rw [ha]; rfl) rfl
  | @entered name body frames s hd =>
    have hlimit := hm.settings ▸ hd
    exact ⟨hm.settings, congrArg (· + 1) hm.depth, hlimit⟩
  | returned =>
    refine ⟨hm.settings, ?_, Nat.le_trans (Nat.sub_le _ _) hm.limit⟩
    exact congrArg (· - 1) hm.depth
  | @unwound error frame frames s =>
    cases frame with
    | call name =>
      refine ⟨hm.settings, ?_, Nat.le_trans (Nat.sub_le _ _) hm.limit⟩
      exact congrArg (· - 1) hm.depth
    | _ => exact hm.of_beside True True ⟨rfl, rfl, fun _ => rfl, fun _ => rfl⟩ rfl
  | _ => exact hm.of_beside True True ⟨rfl, rfl, fun _ => rfl, fun _ => rfl⟩ rfl

end Moment.Level

/-- The moment at which the evaluation of the tokens starts. -/
def Moment.outset (tokens : List Token) (s : Session) : Moment :=
  ⟨.run tokens, [], { s with depth := 0 }⟩

theorem Moment.Leads.level {tokens : List Token} {s : Session} {m : Moment}
    (h : (outset tokens s).Leads m) : m.Level s.settings :=
  h.preserves ⟨rfl, rfl, Nat.zero_le _⟩ fun _ => Level.advance

end StackCalc
