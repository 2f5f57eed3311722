import StackCalc.Proofs.Log.Account
import StackCalc.Proofs.Operands

/-!
Logs are sound: they account for every change of the current stack and of the stacks set aside, in
every evaluation, whatever bodies it runs.
-/
namespace StackCalc

open Eval

namespace Stack

variable {α β : Type}

theorem Pops.pure (a : α) : Pops 0 (Pure.pure a) := by
  intro s t a' h
  cases h
  exact ⟨Nat.zero_le _, rfl, rfl⟩

theorem Pops.throw (count : Nat) (kind : ErrorKind) :
    Pops count (MonadExcept.throw kind : Op α) := by
  intro s t a h
  cases h

theorem Pops.require (needed : Nat) : Pops 0 (Stack.require needed) := by
  intro s t a h
  obtain ⟨-, rfl⟩ := require_eq_ok.1 h
  exact ⟨Nat.zero_le _, rfl, rfl⟩

theorem Pops.pop : Pops 1 Stack.pop := by
  intro s t value h
  obtain ⟨rest, hv, rfl⟩ := pop_eq_ok.1 h
  refine ⟨?_, rfl, rfl⟩
  rw [s.height_eq, hv, List.length_cons]
  exact Nat.succ_pos _

theorem Pops.bind {m n : Nat} {op : Op α} {next : α → Op β} (ho : Pops m op)
    (hn : ∀ a, Pops n (next a)) : Pops (n + m) (op >>= next) := by
  intro s u b h
  obtain ⟨a, t, hs, ht⟩ := bind_eq_ok.1 h
  obtain ⟨hm, hv, hmark⟩ := ho s t a hs
  obtain ⟨hn, hv', hmark'⟩ := hn a t u b ht
  have hh : t.height = s.height - m := by
    rw [t.height_eq, hv, List.length_drop, ← s.height_eq]
  refine ⟨by omega, ?_, ?_⟩
  · rw [hv', hv, List.drop_drop, Nat.add_comm]
  · rw [hmark', hmark, hh]
    split <;> split <;> split <;> omega

theorem Pops.popNumber : Pops 1 Stack.popNumber :=
  bind pop fun value => by
    cases value with
    | number value => exact pure value
    | _ => exact throw _ _

theorem Pops.popSequence : Pops 1 Stack.popSequence :=
  bind pop fun value => by
    cases value with
    | sequence items => exact pure items
    | _ => exact throw _ _

theorem Pops.popQuotation : Pops 1 Stack.popQuotation :=
  bind pop fun value => by
    cases value with
    | quotation body => exact pure body
    | _ => exact throw _ _

theorem Pops.popReference : Pops 1 Stack.popReference :=
  bind pop fun value => by
    cases value with
    | reference name => exact pure name
    | _ => exact throw _ _

theorem Pops.popNumbers : Pops 2 Stack.popNumbers :=
  bind (require 2) fun _ => bind popNumber fun _ => bind popNumber fun _ => pure _

theorem Pops.popCount : Pops 1 Stack.popCount :=
  bind popNumber fun value => by
    cases Arithmetic.count? value with
    | some count => exact pure count
    | none => exact throw _ _

theorem Pops.popSequenceBody : Pops 2 Stack.popSequenceBody :=
  bind (require 2) fun _ => bind popQuotation fun _ => bind popSequence fun _ => pure _

theorem Pops.popSequenceStartBody : Pops 3 Stack.popSequenceStartBody :=
  bind (require 3) fun _ => bind popQuotation fun _ => bind pop fun _ =>
    bind popSequence fun _ => pure _

theorem Pops.kept {count : Nat} {op : Op α} (ho : Pops count op) {s t : Stack} {a : α}
    (h : op s = .ok a t) (hs : s.mark ≤ s.height) : Kept (topmost count s.height) s t := by
  obtain ⟨hc, hv, hm⟩ := ho s t a h
  have hh : t.height = s.height - count := by
    rw [t.height_eq, hv, List.length_drop, ← s.height_eq]
  have hb (k : Nat) (hk : k ≤ t.height) : t.fromBottom.take k = s.fromBottom.take k := by
    rw [t.height_eq, hv] at hk
    rw [take_fromBottom (List.take_append_drop count s.values).symm hk, fromBottom, hv]
  by_cases h0 : count = 0
  · rw [if_pos h0] at hm
    refine ⟨by rw [topmost, if_pos h0, hm, List.foldl_nil], by omega, ?_⟩
    intro k hk
    exact hb k (by omega)
  · rw [if_neg h0] at hm
    refine ⟨by rw [topmost, if_neg h0, hm, List.foldl_cons, List.foldl_nil], by omega, ?_⟩
    intro k hk
    exact hb k (by omega)

theorem drop_bringToFront {places : Nat} {values : List Value} (h : places < values.length) :
    (bringToFront places values).drop (places + 1) = values.drop (places + 1) := by
  simp only [bringToFront, List.getElem?_eq_getElem h, List.drop_succ_cons,
    List.eraseIdx_eq_take_drop_succ]
  rw [List.drop_append_of_le_length (by rw [List.length_take]; omega), List.drop_take]
  simp

theorem Kept.rotate {s t : Stack} {count : Nat} (hc : 0 < count) (h : rotate count s = .ok () t) :
    Kept (topmost count s.height) s t := by
  rw [Stack.rotate] at h
  split at h
  · cases h
  next hn =>
    cases h
    have hp : count - 1 < s.values.length := by
      rw [← s.height_eq]
      omega
    refine ⟨?_, Nat.le_trans (Nat.min_le_right _ _) (Nat.sub_le _ _), ?_⟩
    · rw [topmost, if_neg (Nat.ne_of_gt hc)]
      rfl
    · intro k hk
      have hd := drop_bringToFront hp
      rw [Nat.sub_add_cancel hc] at hd
      have hkd : k ≤ (s.values.drop count).length := by
        rw [List.length_drop, ← s.height_eq]
        exact Nat.le_trans hk (Nat.min_le_right _ _)
      rw [take_fromBottom (List.take_append_drop count s.values).symm hkd, ← hd]
      exact take_fromBottom (List.take_append_drop count _).symm (hd ▸ hkd)

end Stack

/-- A computation that invokes nothing, and takes off or moves the topmost `count` values. -/
structure Eval.Still {α : Type} (count : Nat) (x : Eval α) : Prop where
  accounts : ∀ s, Accounted s [] (finalState (x s))
  keeps : ∀ {s t : Session} {a : α}, x s = .ok a t → s.stack.mark ≤ s.stack.height →
    Stack.Kept (Stack.topmost count s.stack.height) s.stack t.stack

namespace Eval.Still
variable {α β : Type} {count : Nat}

theorem pure (a : α) : Still 0 (Pure.pure a) := by
  refine ⟨Accounted.refl, ?_⟩
  intro s t a' h hs
  cases h
  exact .refl hs

theorem fail (kind : ErrorKind) : Still count (Eval.fail kind : Eval α) :=
  ⟨Accounted.refl, nofun⟩

theorem accounted_onStack (op : Stack.Op α) (s : Session) :
    Accounted s [] (finalState (onStack op s)) := by
  rw [Eval.onStack]
  cases op s.stack <;> exact .of_eq rfl rfl rfl

theorem of_kept {op : Stack.Op α}
    (ho : ∀ {s t : Stack} {a : α}, op s = .ok a t → s.mark ≤ s.height →
      Stack.Kept (Stack.topmost count s.height) s t) : Still count (Eval.onStack op) := by
  refine ⟨accounted_onStack op, ?_⟩
  intro s t a h hs
  rw [Eval.onStack] at h
  cases hr : op s.stack with
  | ok b u =>
    rw [hr] at h
    cases h
    exact ho hr hs
  | error kind u =>
    rw [hr] at h
    cases h

theorem onStack {op : Stack.Op α} (ho : Stack.Pops count op) : Still count (Eval.onStack op) :=
  of_kept ho.kept

theorem push (value : Value) : Still 0 (Eval.push value) :=
  of_kept fun h hs => by
    cases h
    exact (Stack.Kept.refl hs).pushed value

theorem copyFromTop (places : Nat) : Still 0 (Eval.onStack (Stack.copyFromTop places)) := by
  refine of_kept ?_
  intro s t a h hs
  by_cases hp : places < s.values.length
  · rw [Stack.copyFromTop_of_lt hp] at h
    cases h
    exact (Stack.Kept.refl hs).pushed _
  · rw [Stack.copyFromTop_of_short (by rw [s.height_eq]; omega)] at h
    cases h

theorem bind {x : Eval α} {f : α → Eval β} (hx : Still count x) (hf : ∀ a, Still 0 (f a)) :
    Still count (x >>= f) := by
  constructor
  · intro s
    have ha := hx.accounts s
    apply finalState_bind (P := Accounted s [])
    · intro a t hr
      rw [hr] at ha
      exact ha.trans ((hf a).accounts t)
    · intro error t hr
      rw [hr] at ha
      exact ha
  · intro s u b h hs
    obtain ⟨a, t, hr, ht⟩ := bind_eq_ok.1 h
    have hk := hx.keeps hr hs
    have hk' := hk.trans ((hf a).keeps ht hk.mark_le)
    simpa only [Stack.topmost, if_true, List.append_nil] using hk'

/-- A computation that changes the dictionary and the streams alone. -/
theorem of_stack_eq {x : Eval α} (h : ∀ s, (finalState (x s)).settings = s.settings ∧
      (finalState (x s)).depth = s.depth ∧ (finalState (x s)).enclosing = s.enclosing ∧
      (finalState (x s)).stack = s.stack) : Still 0 x := by
  constructor
  · intro s
    obtain ⟨hset, hd, he, -⟩ := h s
    exact .of_eq hset hd he
  · intro s t a hr hs
    obtain ⟨-, -, -, hst⟩ := h s
    rw [hr] at hst
    rw [show t.stack = s.stack from hst]
    exact .refl hs

end Eval.Still

end StackCalc
