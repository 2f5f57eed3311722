import StackCalc.Proofs.Locality.Footing

/-!
Computations that run in parallel: started from sessions that are alike they end alike, unless the
first one runs short of values where the second one has more, or takes values out of the footing of
a stack that was set aside. The operations of which words are made do so, and sequences of them.
-/
namespace StackCalc

/-- An operation that found too few values. -/
def ErrorKind.IsUnderflow : ErrorKind → Prop
  | .stackUnderflow _ _ => True
  | _ => False

section Results
variable {α β : Type}

/-- How the results of two operations on stacks over the world's footing agree. -/
inductive OpAgree (w : World) :
    EStateM.Result ErrorKind Stack α → EStateM.Result ErrorKind Stack α → Prop where
  | ok {a : α} {s s' : Stack} : w.current.Bears s s' → OpAgree w (.ok a s) (.ok a s')
  | error {kind : ErrorKind} {s s' : Stack} :
      w.current.Bears s s' → OpAgree w (.error kind s) (.error kind s')
  | short {kind : ErrorKind} {s : Stack} {r : EStateM.Result ErrorKind Stack α} :
      ¬ w.Even → kind.IsUnderflow → OpAgree w (.error kind s) r

/-- An operation that tells stacks over the world's footing apart only where it runs short. -/
def OpParallel (w : World) (op : Stack.Op α) : Prop :=
  ∀ s s' : Stack, w.current.Bears s s' → OpAgree w (op s) (op s')

/-- How the results of two runs agree; `g` tells the second value from the first. -/
inductive Agree (w : World) (g : α → β) :
    EStateM.Result EvalError Session α → EStateM.Result EvalError Session β → Prop where
  | ok {a : α} {s s' : Session} : Alike w s s' → Agree w g (.ok a s) (.ok (g a) s')
  | error {error : EvalError} {s s' : Session} :
      Alike w s s' → Agree w g (.error error s) (.error error s')
  | short {error : EvalError} {s : Session} {r : EStateM.Result EvalError Session β} :
      ¬ w.Even → error.kind.IsUnderflow → Agree w g (.error error s) r
  | dug {r : EStateM.Result EvalError Session α} {r' : EStateM.Result EvalError Session β} :
      Footing.Dug w.outer (finalState r).enclosing → Agree w g r r'

theorem Agree.nameWord {w : World} {g : α → β} {r : EStateM.Result EvalError Session α}
    {r' : EStateM.Result EvalError Session β} (h : Agree w g r r') (name : String) :
    Agree w g (Eval.nameWord name r) (Eval.nameWord name r') := by
  cases h with
  | ok h => exact .ok h
  | error h => exact .error h
  | short hw hk => exact .short hw hk
  | dug hd => exact .dug (by rwa [Eval.finalState_nameWord])

/-- Alike sessions lead to results that agree, and no stack that is set aside grows. -/
structure Parallel (w : World) (g : α → β) (x : Eval α) (x' : Eval β) : Prop where
  agree : ∀ {s s' : Session}, Alike w s s' → Agree w g (x s) (x' s')
  sinks : ∀ s : Session, Sunk s.enclosing (finalState (x s)).enclosing

end Results

namespace Parallel
variable {w : World} {α α' β β' : Type} {g : α → α'} {h : β → β'}

theorem pure (a : α) : Parallel w g (Pure.pure a) (Pure.pure (g a)) :=
  ⟨fun hs => .ok hs, fun s => Sunk.refl s.enclosing⟩

theorem fail (kind : ErrorKind) : Parallel w g (Eval.fail kind) (Eval.fail kind) :=
  ⟨fun hs => .error hs, fun s => Sunk.refl s.enclosing⟩

theorem bind {x : Eval α} {x' : Eval α'} {f : α → Eval β} {f' : α' → Eval β'}
    (hx : Parallel w g x x') (hf : ∀ a, Parallel w h (f a) (f' (g a))) :
    Parallel w h (x >>= f) (x' >>= f') := by
  constructor
  · intro s s' hs
    have ha := hx.agree hs
    cases hr : x s with
    | ok a t =>
      rw [bind_of_ok hr]
      rw [hr] at ha
      generalize hr' : x' s' = r' at ha
      cases ha with
      | ok ht =>
        rw [bind_of_ok hr']
        exact (hf a).agree ht
      -- what the first step has dug out, the second one does not fill up again
      | dug hd => exact .dug (hd.sunk ((hf a).sinks t))
    | error error t =>
      rw [bind_of_error hr]
      rw [hr] at ha
      generalize hr' : x' s' = r' at ha
      cases ha with
      | error ht =>
        rw [bind_of_error hr']
        exact .error ht
      | short hw hk => exact .short hw hk
      | dug hd => exact .dug hd
  · intro s
    have hk := hx.sinks s
    apply finalState_bind (P := fun t : Session => Sunk s.enclosing t.enclosing)
    · intro a t hr
      rw [hr] at hk
      exact hk.trans ((hf a).sinks t)
    · intro error t hr
      rw [hr] at hk
      exact hk

/-- An operation on the current stack leaves the stacks that are set aside alone. -/
theorem onStack {op : Stack.Op α} (ho : OpParallel w op) :
    Parallel w id (Eval.onStack op) (Eval.onStack op) := by
  constructor
  · intro s s' hs
    have ha := ho _ _ hs.stack
    simp only [Eval.onStack]
    generalize op s.stack = r at ha
    generalize op s'.stack = r' at ha
    cases ha with
    | ok ht => exact .ok (hs.withStack ht)
    | error ht => exact .error (hs.withStack ht)
    | short hw hk => exact .short hw hk
  · intro s
    simp only [Eval.onStack]
    cases op s.stack <;> exact Sunk.refl s.enclosing

end Parallel

namespace OpParallel
variable {w : World} {α β : Type}

theorem pure (a : α) : OpParallel w (Pure.pure a) :=
  fun _ _ hs => .ok hs

theorem throw (kind : ErrorKind) : OpParallel w (MonadExcept.throw kind : Stack.Op α) :=
  fun _ _ hs => .error hs

theorem bind {op : Stack.Op α} {next : α → Stack.Op β} (ho : OpParallel w op)
    (hn : ∀ a, OpParallel w (next a)) : OpParallel w (op >>= next) := by
  intro s s' hs
  have ha := ho s s' hs
  cases hr : op s with
  | ok a t =>
    rw [bind_of_ok hr]
    rw [hr] at ha
    generalize hr' : op s' = r' at ha
    cases ha with
    | ok ht =>
      rw [bind_of_ok hr']
      exact hn a _ _ ht
  | error kind t =>
    rw [bind_of_error hr]
    rw [hr] at ha
    generalize hr' : op s' = r' at ha
    cases ha with
    | error ht =>
      rw [bind_of_error hr']
      exact .error ht
    | short hw hk => exact .short hw hk

/-- Where there are too few values the second stack either has as few or rests on more. -/
theorem tooFew {s s' : Stack} {needed : Nat} (h : w.current.Bears s s')
    {r : EStateM.Result ErrorKind Stack α}
    (hr : s'.height = s.height → r = .error (.stackUnderflow needed s'.height) s') :
    OpAgree w (.error (.stackUnderflow needed s.height) s) r := by
  by_cases hw : w.below = []
  · have hh : s'.height = s.height := by rw [h.height_eq, hw, List.length_nil, Nat.add_zero]
    rw [hr hh, hh]
    exact .error h
  · exact .short (fun he => hw he.1) trivial

theorem require (needed : Nat) : OpParallel w (Stack.require needed) := by
  intro s s' h
  have hh := h.height_eq
  by_cases hn : s.height < needed
  · rw [Stack.require, if_pos hn]
    apply tooFew h
    intro he
    rw [Stack.require, if_pos (he ▸ hn)]
  · rw [Stack.require, if_neg hn, Stack.require, if_neg (by omega)]
    exact .ok h

theorem push (value : Value) : OpParallel w (Stack.push value) :=
  fun _ _ h => .ok (h.pushed value)

theorem pop : OpParallel w Stack.pop := by
  intro s s' h
  rcases h.pop with ⟨value, t, t', hp, hp', ht⟩ | ⟨value, t, hp, ht⟩ | ⟨hs, hn, hs'⟩
  · rw [hp, hp']
    exact .ok ht
  · exact absurd ht (Nat.not_lt_zero _)
  · rw [Stack.pop_of_nil hs]
    by_cases hw : w.below = []
    · rw [Stack.pop_of_nil (hs' hw)]
      exact .error h
    · exact .short (fun he => hw he.1) trivial

theorem copyFromTop (places : Nat) : OpParallel w (Stack.copyFromTop places) := by
  intro s s' h
  by_cases hp : places < s.values.length
  · have hp' : places < s'.values.length := by
      rw [h.values_eq, List.length_append]
      omega
    have hg : s'.values[places] = s.values[places] := by
      simp only [h.values_eq, List.getElem_append_left hp]
    rw [Stack.copyFromTop_of_lt hp, Stack.copyFromTop_of_lt hp', hg]
    exact .ok (h.pushed _)
  · have hs : s.height < places + 1 := by
      rw [s.height_eq]
      omega
    rw [Stack.copyFromTop_of_short hs]
    exact tooFew h fun he => Stack.copyFromTop_of_short (he ▸ hs)

theorem rotate {count : Nat} (hc : 0 < count) : OpParallel w (Stack.rotate count) := by
  intro s s' h
  have hh := h.height_eq
  by_cases hn : s.height < count
  · rw [Stack.rotate, if_pos hn]
    apply tooFew h
    intro he
    rw [Stack.rotate, if_pos (he ▸ hn)]
  · rw [Stack.rotate, if_neg hn, Stack.rotate, if_neg (by omega)]
    have hl : count - 1 < s.values.length := by
      rw [← s.height_eq]
      omega
    refine .ok (World.bears_of ?_ fun hw => ?_)
    · simp only [h.values_eq, Stack.bringToFront_append _ hl]
    · simp only [h.mark_eq hw, hh]
      omega

/-! Operands, taken off by kind. -/

theorem popNumber : OpParallel w Stack.popNumber :=
  bind pop fun value => by
    cases value with
    | number value => exact pure value
    | _ => exact throw _

theorem popSequence : OpParallel w Stack.popSequence :=
  bind pop fun value => by
    cases value with
    | sequence items => exact pure items
    | _ => exact throw _

theorem popQuotation : OpParallel w Stack.popQuotation :=
  bind pop fun value => by
    cases value with
    | quotation body => exact pure body
    | _ => exact throw _

theorem popReference : OpParallel w Stack.popReference :=
  bind pop fun value => by
    cases value with
    | reference name => exact pure name
    | _ => exact throw _

theorem popNumbers : OpParallel w Stack.popNumbers :=
  bind (require 2) fun _ => bind popNumber fun _ => bind popNumber fun _ => pure _

theorem popCount : OpParallel w Stack.popCount :=
  bind popNumber fun value => by
    cases Arithmetic.count? value with
    | some count => exact pure count
    | none => exact throw _

theorem popSequenceBody : OpParallel w Stack.popSequenceBody :=
  bind (require 2) fun _ => bind popQuotation fun _ => bind popSequence fun _ => pure _

theorem popSequenceStartBody : OpParallel w Stack.popSequenceStartBody :=
  bind (require 3) fun _ => bind popQuotation fun _ => bind pop fun _ =>
    bind popSequence fun _ => pure _

end OpParallel

end StackCalc
