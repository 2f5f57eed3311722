import StackCalc.Prelude
import StackCalc.Proofs.Locality.Frame
import StackCalc.Proofs.Log.Evaluator

/-!
No request leaves a residue: whatever a session has been asked to do, and wherever it failed, it
answers further requests as a newly built session does that has the same words, values, settings and
streams.
-/
namespace StackCalc

open Eval

/-- What a host can ask of a session. -/
inductive Request where
  | load (source : String)
  | evaluateLine (source : String)
  | clearStack
  deriving DecidableEq, Repr

/-- The answer to a request: the values that a line leaves, or an error. -/
abbrev Reply := Except EvalError (List Value)

/-- What a request does. Only a line is answered with values. -/
def Request.act : Request → Eval (List Value)
  | .load source => do
    Eval.load source
    return []
  | .evaluateLine source => Eval.evaluateLine source
  | .clearStack => do
    modify Session.clearStack
    return []

namespace Session

/-- A newly built session. -/
def fresh (settings : Settings) (dictionary : Dictionary) (values : List Value)
    (input : List UInt8) (output : Output) : Session where
  settings := settings
  dictionary := dictionary
  stack := .ofBottom values
  input := input
  output := output

/-- The reply to a request, and the session after it, which goes on also after an error. -/
def perform (request : Request) (s : Session) : Reply × Session :=
  match request.act s with
  | .ok values t => (.ok values, t)
  | .error error t => (.error error, t)

/-- The replies to requests that are made one after another, and the session after them. -/
def performAll : List Request → Session → List Reply × Session
  | [], s => ([], s)
  | request :: rest, s =>
    let (reply, t) := s.perform request
    let (replies, u) := t.performAll rest
    (reply :: replies, u)

end Session

theorem perform_load {source : String} {s t : Session} (h : load source s = .ok () t) :
    s.perform (.load source) = (.ok [], t) := by
  rw [Session.perform, Request.act, bind_of_ok h]
  rfl

/-- A session starts as a fresh one with the primitives alone, which loads the word library if the
settings ask for it. -/
theorem eq_performAll_of_start {settings : Settings} {input : List UInt8} {output : Output}
    {s : Session} (h : Session.start settings input output = .ok s) :
    s = ((Session.fresh settings .primitives [] input output).performAll
      (if settings.loadPrelude then [.load Prelude.source] else [])).2 := by
  have hfresh : Session.fresh settings .primitives [] input output =
      { settings, input, output } := rfl
  rw [Session.start] at h
  rw [hfresh]
  -- nothing here depends on what the library says, and its text is too long to compute with
  generalize Prelude.source = source at h ⊢
  split at h
  next hp =>
    split at h
    next t hl =>
      cases h
      rw [if_pos hp, Session.performAll, perform_load hl]
      rfl
    next => cases h
  next hp =>
    cases h
    rw [if_neg hp, Session.performAll]

/-! Between requests no scope and no call is open. -/

/-- No scope and no call is open. -/
structure Session.AtRest (s : Session) : Prop where
  enclosing : s.enclosing = []
  depth : s.depth = 0

theorem SetAside.eq_nil {log : List Invocation} {ss ts : List Stack} (h : SetAside log ss ts)
    (hs : ss = []) : ts = [] := by
  subst hs
  cases h
  rfl

/-- A computation that ends at rest where it starts at rest, and keeps the settings. -/
def Eval.Rests {α : Type} (x : Eval α) : Prop :=
  ∀ s : Session, s.AtRest → (finalState (x s)).AtRest ∧ (finalState (x s)).settings = s.settings

namespace Eval.Rests
variable {α β : Type}

theorem pure (a : α) : Rests (Pure.pure a) :=
  fun _ h => ⟨h, rfl⟩

theorem bind {x : Eval α} {f : α → Eval β} (hx : Rests x) (hf : ∀ a, Rests (f a)) :
    Rests (x >>= f) := by
  intro s h
  have hs := hx s h
  apply finalState_bind (P := fun u : Session => u.AtRest ∧ u.settings = s.settings)
  · intro a t hr
    rw [hr] at hs
    obtain ⟨ht, hset⟩ := hf a t hs.1
    exact ⟨ht, hset.trans hs.2⟩
  · intro error t hr
    rw [hr] at hs
    exact hs

/-- A program, whether it fails or not, closes every scope and call that it opens. -/
theorem load (source : String) : Rests (Eval.load source) := by
  intro s h
  rw [Eval.load]
  cases tokenize source with
  | error fault => exact ⟨h, rfl⟩
  | ok tokens =>
    simp only [modify_bind_apply]
    have ha := (Log.Sound.evaluate tokens).accounts { s with depth := 0 }
    exact ⟨⟨ha.enclosing.eq_nil h.enclosing, ha.depth⟩, ha.settings⟩

theorem act (request : Request) : Rests request.act := by
  cases request with
  | load source => exact bind (load source) fun _ => pure []
  | evaluateLine source => exact bind (load source) fun _ s h => ⟨h, rfl⟩
  | clearStack => exact fun _ h => ⟨⟨h.enclosing, h.depth⟩, rfl⟩

end Eval.Rests

theorem perform_atRest (request : Request) {s : Session} (h : s.AtRest) :
    (s.perform request).2.AtRest ∧ (s.perform request).2.settings = s.settings := by
  have ha := Rests.act request s h
  rw [Session.perform]
  cases hr : request.act s <;> rw [hr] at ha <;> exact ha

theorem performAll_atRest (requests : List Request) {s : Session} (h : s.AtRest) :
    (s.performAll requests).2.AtRest ∧ (s.performAll requests).2.settings = s.settings := by
  induction requests generalizing s with
  | nil => exact ⟨h, rfl⟩
  | cons request rest ih =>
    obtain ⟨hp, hs⟩ := perform_atRest request h
    obtain ⟨hr, ht⟩ := ih hp
    exact ⟨hr, ht.trans hs⟩

/-! Sessions at rest answer alike. -/

/-- The world of two sessions at rest that have the same values, whatever their marks. -/
def World.rest {out out' : Output} (h : out.Alike out') : World where
  below := []
  marked := False
  outer := []
  firstOutput := out
  secondOutput := out'
  outputs := h

theorem alike_fresh {s : Session} (h : s.AtRest) {out : Output} (ho : s.output.Alike out) :
    Alike (.rest ho) s
      (.fresh s.settings s.dictionary s.stack.fromBottom s.input out) where
  settings := rfl
  dictionary := rfl
  depth := h.depth.symm
  input := rfl
  output := ⟨[], (Output.after_nil _).symm, (Output.after_nil _).symm⟩
  stack := by
    refine World.bears_of ?_ False.elim
    simp [Session.fresh, Stack.ofBottom, Stack.fromBottom, World.rest]
  enclosing := by
    rw [h.enclosing]
    exact .nil

section Parallel
variable {out out' : Output} {ho : out.Alike out'} {s s' : Session}

theorem fromBottom_of_alike_rest (h : Alike (.rest ho) s s') :
    s'.stack.fromBottom = s.stack.fromBottom := by
  have hv : s'.stack.values = s.stack.values ++ [] := h.stack.values_eq
  rw [Stack.fromBottom, hv, List.append_nil, Stack.fromBottom]

namespace Parallel

theorem load (w : World) (source : String) :
    Parallel w id (Eval.load source) (Eval.load source) := by
  rw [Eval.load]
  cases tokenize source with
  | error fault => exact fail _
  | ok tokens =>
    refine bind (h := id) (g := id) ⟨?_, ?_⟩ fun _ => evaluate tokens
    · exact fun h => .ok { h with depth := rfl }
    · exact fun s => Sunk.refl s.enclosing

theorem act (request : Request) : Parallel (.rest ho) id request.act request.act := by
  cases request with
  | load source => exact bind (load _ source) fun _ => pure []
  | evaluateLine source =>
    refine bind (load _ source) fun _ => ⟨?_, ?_⟩
    · intro s s' h
      simp only [get_bind_apply, pure_apply, fromBottom_of_alike_rest h]
      exact .ok h
    · exact fun s => Sunk.refl s.enclosing
  | clearStack =>
    refine bind (g := id) ⟨?_, ?_⟩ fun _ => pure []
    · exact fun h => .ok (h.withStack (World.bears_of rfl False.elim))
    · exact fun s => Sunk.refl s.enclosing

end Parallel

/-- Neither session has a value that the other one lacks, and nothing is set aside, so the results
are the same. -/
theorem perform_alike (request : Request) (h : Alike (.rest ho) s s') :
    (s'.perform request).1 = (s.perform request).1 ∧
      Alike (.rest ho) (s.perform request).2 (s'.perform request).2 := by
  have ha := (Parallel.act request).agree h
  rw [Session.perform, Session.perform]
  generalize request.act s = r at ha
  generalize request.act s' = r' at ha
  cases ha with
  | ok ht => exact ⟨rfl, ht⟩
  | error ht => exact ⟨rfl, ht⟩
  | short hw _ => exact absurd ⟨rfl, nofun⟩ hw
  | dug hd => cases hd

theorem performAll_alike (requests : List Request) (h : Alike (.rest ho) s s') :
    (s'.performAll requests).1 = (s.performAll requests).1 ∧
      Alike (.rest ho) (s.performAll requests).2 (s'.performAll requests).2 := by
  induction requests generalizing s s' with
  | nil => exact ⟨rfl, h⟩
  | cons request rest ih =>
    obtain ⟨hp, ht⟩ := perform_alike request h
    obtain ⟨hr, hu⟩ := ih ht
    refine ⟨?_, hu⟩
    simp only [Session.performAll, hp, hr]

end Parallel

/-- After any requests to a newly built session, whichever of them failed, no scope and no call is
open, and all further requests are answered as by a newly built session with the same settings,
words, values and input, and an output that accepts the same. The two sessions end with the same
words, values and input, and have written the same bytes. -/
theorem performAll_residue_free (settings : Settings) (dictionary : Dictionary)
    (values : List Value) (input : List UInt8) (output : Output) (history : List Request) :
    let s := ((Session.fresh settings dictionary values input output).performAll history).2
    s.enclosing = [] ∧ s.depth = 0 ∧ s.settings = settings ∧
      ∀ (later : List Request) (out : Output), s.output.Alike out →
        let new := Session.fresh settings s.dictionary s.stack.fromBottom s.input out
        let t := (s.performAll later).2
        let t' := (new.performAll later).2
        (s.performAll later).1 = (new.performAll later).1 ∧
          t.dictionary = t'.dictionary ∧ t.stack.fromBottom = t'.stack.fromBottom ∧
          t.input = t'.input ∧ t.enclosing = t'.enclosing ∧ t.depth = t'.depth ∧
          t.settings = t'.settings ∧
          ∃ content, t.output = s.output.after content ∧ t'.output = out.after content := by
  intro s
  obtain ⟨hs, hset⟩ := performAll_atRest history
    (s := .fresh settings dictionary values input output) ⟨rfl, rfl⟩
  refine ⟨hs.enclosing, hs.depth, hset, ?_⟩
  intro later out ho new t t'
  have ha := alike_fresh hs ho
  rw [show s.settings = settings from hset] at ha
  obtain ⟨hr, ht⟩ := performAll_alike later ha
  obtain ⟨hrest, -⟩ := performAll_atRest later hs
  obtain ⟨hrest', -⟩ := performAll_atRest later (s := new) ⟨rfl, rfl⟩
  obtain ⟨content, hout, hout'⟩ := ht.output
  exact ⟨hr.symm, ht.dictionary.symm, (fromBottom_of_alike_rest ht).symm, ht.input.symm,
    hrest.enclosing.trans hrest'.enclosing.symm, hrest.depth.trans hrest'.depth.symm,
    ht.settings.symm, content, hout, hout'⟩

end StackCalc
