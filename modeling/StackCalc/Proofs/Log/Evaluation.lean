import StackCalc.Proofs.Log.Soundness

/-!
The log of every evaluation is sound. A body that a combinator runs under a watch leaves the current
stack exactly as it was, once its result is taken off; so loops over such bodies touch nothing that
was there before.
-/
namespace StackCalc

open Eval

/-- A primitive touches as many of the topmost values as it takes. -/
theorem touchedAt_note (operation : Primitive) (s : Session) :
    touchedAt s.enclosing.length [⟨operation, s⟩] =
      Stack.topmost operation.taken s.stack.height := by
  cases operation <;>
    simp [touchedAt, Invocation.touched, Invocation.level, Primitive.taken, Stack.topmost]

/-- Primitives other than the drawing one leave the stacks alone that are set aside. -/
theorem Accounted.note {operation : Primitive} (ho : operation ≠ .draw) (s : Session) :
    Accounted s [⟨operation, s⟩] s := by
  refine ⟨rfl, rfl, ?_, ?_⟩
  · intro e he
    rw [List.mem_singleton.1 he]
    exact Nat.le_refl _
  · cases hs : s.enclosing with
    | nil => exact .nil
    | cons outer rest =>
      have hl : s.enclosing.length = rest.length + 1 := congrArg List.length hs
      have hd : drawnAt (rest.length + 1) [⟨operation, s⟩] = [] := by
        cases operation <;> simp_all [drawnAt, Invocation.drawn]
      have ht : touchedAt rest.length [⟨operation, s⟩] = [] := by
        cases operation <;> simp_all [touchedAt, Invocation.touched, Invocation.level]
      refine .cons ?_
      rw [hd, ht]
      exact .refl outer

namespace Log

/-- The log accounts for what the computation does to the session, also where it fails. -/
def Accounts {α : Type} {x : Eval α} (log : Log x) : Prop :=
  ∀ s, Accounted s (log s) (finalState (x s))

/-- Where the computation succeeds, the log also says what was touched of the current stack. -/
structure Sound {α : Type} {x : Eval α} (log : Log x) : Prop where
  accounts : Accounts log
  keeps : ∀ {s t : Session} {a : α}, x s = .ok a t → s.stack.mark ≤ s.stack.height →
    Stack.Kept (touchedAt s.enclosing.length (log s)) s.stack t.stack

section Sequence
variable {α β : Type} {x : Eval α} {f : α → Eval β} {log : Log x} {next : ∀ a, Log (f a)}

theorem bind_of_ok {s t : Session} {a : α} (h : x s = .ok a t) :
    bind log next s = log s ++ next a t := by
  rw [bind, h, onward]

theorem bind_of_error {s t : Session} {error : EvalError} (h : x s = .error error t) :
    bind log next s = log s := by
  rw [bind, h, onward, List.append_nil]

theorem bind_silent (s : Session) : bind log (fun a => (silent : Log (f a))) s = log s := by
  cases h : x s with
  | ok a t => rw [bind_of_ok h, silent, List.append_nil]
  | error error t => rw [bind_of_error h]

theorem Accounts.ok (hx : Accounts log) {s t : Session} {a : α} (h : x s = .ok a t) :
    Accounted s (log s) t := by
  have ha := hx s
  rw [h] at ha
  exact ha

theorem Accounts.bind (hx : Accounts log) (hf : ∀ a, Accounts (next a)) :
    Accounts (bind log next) := by
  intro s
  apply finalState_bind (P := Accounted s _)
  · intro a t hr
    rw [bind_of_ok hr]
    exact (hx.ok hr).trans (hf a t)
  · intro error t hr
    have ha := hx s
    rw [hr] at ha
    rw [bind_of_error hr]
    exact ha

end Sequence

namespace Sound
variable {α β : Type} {x : Eval α} {f : α → Eval β}

theorem silent (h : Still 0 x) : Sound (silent : Log x) :=
  ⟨h.accounts, h.keeps⟩

/-- A log depends on a computation only through what it does. -/
theorem of_eq {y : Eval α} {log : Log x} (h : Sound log) (hxy : x = y) : Sound (x := y) log := by
  subst hxy
  exact h

theorem bind {log : Log x} {next : ∀ a, Log (f a)} (hx : Sound log) (hf : ∀ a, Sound (next a)) :
    Sound (bind log next) := by
  refine ⟨hx.accounts.bind fun a => (hf a).accounts, ?_⟩
  intro s u b h hs
  obtain ⟨a, t, hr, ht⟩ := bind_eq_ok.1 h
  have hl : t.enclosing.length = s.enclosing.length := (hx.accounts.ok hr).enclosing.length_eq
  have hk := hx.keeps hr hs
  have hk' := (hf a).keeps ht hk.mark_le
  rw [hl] at hk'
  rw [bind_of_ok hr, touchedAt_append]
  exact hk.trans hk'

theorem note {operation : Primitive} (ho : operation ≠ .draw) (hx : Still operation.taken x) :
    Sound (note operation (Log.silent : Log x)) := by
  constructor
  · intro s
    exact (Accounted.note ho s).trans (hx.accounts s)
  · intro s t a h hs
    rw [Log.note, Log.silent, touchedAt_note]
    exact hx.keeps h hs

/-- A primitive takes its operands off and goes on to run bodies. -/
theorem noteBind {operation : Primitive} (ho : operation ≠ .draw) (hx : Still operation.taken x)
    {next : ∀ a, Log (f a)} (hf : ∀ a, Sound (next a)) :
    Sound (Log.note operation (Log.bind (Log.silent : Log x) next)) :=
  bind (note ho hx) hf

theorem only {act : Eval Unit} {log : Log act} (h : Sound log) : Sound (only log) :=
  bind h fun _ => silent (.pure none)

theorem times {act : Eval Unit} {log : Log act} (h : Sound log) (count : Nat) :
    Sound (times log count) := by
  induction count with
  | zero => exact silent (.pure ())
  | succ count ih => exact bind h fun _ => ih

theorem inFrame {act : Eval Unit} {log : Log act} (h : Sound log) (name : String) :
    Sound (inFrame log name) := by
  constructor
  · intro s
    have ha := h.accounts { s with depth := s.depth + 1 }
    rw [Log.inFrame, Eval.inFrame]
    generalize act { s with depth := s.depth + 1 } = r at ha
    have hd : (finalState r).depth - 1 = s.depth := by
      rw [ha.depth, Nat.add_sub_cancel]
    cases r <;> exact ⟨ha.settings, hd, ha.levels, ha.enclosing⟩
  · intro s t a hr hs
    rw [Eval.inFrame] at hr
    cases hact : act { s with depth := s.depth + 1 } with
    | ok b u =>
      rw [hact] at hr
      cases hr
      exact h.keeps hact hs
    | error error u =>
      rw [hact] at hr
      cases hr

/-- What the body draws comes off the stack that is set aside, and so off the one that is current
again after it. -/
theorem drawn_arrayScope {body : Eval Unit} {log : Log body} (h : Sound log) (s : Session) :
    ∃ outer, (finalState (body (scopeEntered s))).enclosing = outer :: s.enclosing ∧
      Stack.Drawn (drawnAt (s.enclosing.length + 1) (log (scopeEntered s)))
        (touchedAt s.enclosing.length (log (scopeEntered s))) s.stack outer := by
  have he := (h.accounts (scopeEntered s)).enclosing
  generalize (finalState (body (scopeEntered s))).enclosing = ts at he ⊢
  cases he with
  | cons hd => exact ⟨_, rfl, hd⟩

theorem arrayScope {body : Eval Unit} {log : Log body} (h : Sound log) :
    Sound (arrayScope log) := by
  constructor
  · intro s
    have ha := h.accounts (scopeEntered s)
    obtain ⟨outer, he, -⟩ := drawn_arrayScope h s
    have hl : ∀ e ∈ log (scopeEntered s), s.enclosing.length ≤ e.level :=
      fun e he => Nat.le_of_succ_le (ha.levels e he)
    -- the scope has a level of its own, so nothing in it reaches the stacks further out
    have hin : SetAside (log (scopeEntered s)) s.enclosing
        (finalState (body (scopeEntered s))).enclosing.tail := by
      rw [he]
      exact .of_lt ha.levels
    rw [Log.arrayScope, Eval.arrayScope]
    generalize body (scopeEntered s) = r at ha hin
    cases r <;> exact ⟨ha.settings, ha.depth, hl, hin⟩
  · intro s t a hr hs
    obtain ⟨outer, he, hd⟩ := drawn_arrayScope h s
    rw [Eval.arrayScope] at hr
    cases hb : body (scopeEntered s) with
    | ok b u =>
      rw [hb] at hr he
      cases hr
      rw [show (scopeLeft u).stack = outer by rw [scopeLeft, show u.enclosing = _ from he]; rfl]
      -- what was drawn is missing from the stack that is current again
      exact (hd.kept hs).pushed _
    | error error u =>
      rw [hb] at hr
      cases hr

theorem enclosed (bracket : Bracket) (body : List Token) {runBody : Eval Unit}
    {log : Log runBody} (h : Sound log) : Sound (enclosed bracket body log) := by
  cases bracket with
  | brace => exact silent (.push _)
  | square => exact arrayScope h

end Sound

end Log

end StackCalc
