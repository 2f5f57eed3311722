import StackCalc.Proofs.Moments.Steps

/-!
The mark of a stack is never above its height: whatever an evaluation does, at every moment of it,
and also where it fails.
-/
namespace StackCalc

open Eval Moment

namespace Stack

/-- The mark is not above the height. -/
def Marked (s : Stack) : Prop :=
  s.mark ≤ s.height

theorem marked_empty : empty.Marked :=
  Nat.le_refl 0

theorem Marked.pushed {s : Stack} (h : s.Marked) (value : Value) : (s.pushed value).Marked :=
  Nat.le_succ_of_le h

theorem marked_dropped (count : Nat) (s : Stack) : (s.dropped count).Marked :=
  Nat.min_le_right _ _

theorem marked_watched (s : Stack) : s.watched.Marked :=
  Nat.le_refl s.height

theorem Marked.unwatched {s : Stack} (h : s.Marked) (outer : Nat) : (s.unwatched outer).Marked :=
  Nat.le_trans (Nat.min_le_right _ _) h

/-- The operation keeps the mark down, also where it fails. -/
def Marks {α : Type} (op : Op α) : Prop :=
  ∀ s : Stack, s.Marked → (finalState (op s)).Marked

namespace Marks
variable {α β : Type}

theorem still {op : Op α} (h : ∀ s, finalState (op s) = s) : Marks op := by
  intro s hs
  rw [h]
  exact hs

theorem bind {op : Op α} {next : α → Op β} (ho : Marks op) (hn : ∀ a, Marks (next a)) :
    Marks (op >>= next) := by
  intro s hs
  have hop := ho s hs
  apply finalState_bind
  · intro a t hr
    rw [hr] at hop
    exact hn a t hop
  · intro kind t hr
    rw [hr] at hop
    exact hop

theorem require (needed : Nat) : Marks (Stack.require needed) :=
  still fun s => by
    rw [Stack.require]
    split <;> rfl

theorem pop : Marks Stack.pop := by
  intro s hs
  cases hv : s.values with
  | nil =>
    rw [pop_of_nil hv]
    exact hs
  | cons value rest =>
    rw [pop_eq_ok.2 ⟨rest, hv, rfl⟩]
    exact marked_dropped 1 s

theorem copyFromTop (places : Nat) : Marks (Stack.copyFromTop places) := by
  intro s hs
  by_cases hp : places < s.values.length
  · rw [copyFromTop_of_lt hp]
    exact hs.pushed _
  · rw [copyFromTop_of_short (by rw [s.height_eq]; omega)]
    exact hs

theorem rotate (count : Nat) : Marks (Stack.rotate count) := by
  intro s hs
  rw [Stack.rotate]
  split
  · exact hs
  · exact Nat.le_trans (Nat.min_le_left _ _) hs

theorem popNumber : Marks Stack.popNumber :=
  pop.bind fun value => still fun _ => by cases value <;> rfl

theorem popSequence : Marks Stack.popSequence :=
  pop.bind fun value => still fun _ => by cases value <;> rfl

theorem popQuotation : Marks Stack.popQuotation :=
  pop.bind fun value => still fun _ => by cases value <;> rfl

theorem popReference : Marks Stack.popReference :=
  pop.bind fun value => still fun _ => by cases value <;> rfl

theorem popCount : Marks Stack.popCount :=
  popNumber.bind fun value => still fun _ => by cases Arithmetic.count? value <;> rfl

theorem pure (a : α) : Marks (Pure.pure a) :=
  still fun _ => rfl

theorem popNumbers : Marks Stack.popNumbers :=
  (require 2).bind fun _ => popNumber.bind fun _ => popNumber.bind fun _ => pure _

theorem popSequenceBody : Marks Stack.popSequenceBody :=
  (require 2).bind fun _ => popQuotation.bind fun _ => popSequence.bind fun _ => pure _

theorem popSequenceStartBody : Marks Stack.popSequenceStartBody :=
  (require 3).bind fun _ => popQuotation.bind fun _ => pop.bind fun _ =>
    popSequence.bind fun _ => pure _

end Marks

end Stack

/-- The marks of the current stack and of those set aside are not above their heights. -/
structure Session.Marked (s : Session) : Prop where
  stack : s.stack.Marked
  enclosing : ∀ outer ∈ s.enclosing, outer.Marked

namespace Session.Marked
variable {s : Session}

theorem pushed (h : s.Marked) (value : Value) : (s.pushed value).Marked :=
  ⟨h.stack.pushed value, h.enclosing⟩

theorem scopeEntered (h : s.Marked) : (Eval.scopeEntered s).Marked :=
  ⟨Stack.marked_empty, List.forall_mem_cons.2 ⟨h.stack, h.enclosing⟩⟩

theorem scopeLeft (h : s.Marked) : (Eval.scopeLeft s).Marked := by
  refine ⟨?_, fun outer ho => h.enclosing outer (List.mem_of_mem_tail ho)⟩
  rw [Eval.scopeLeft]
  cases he : s.enclosing with
  | nil => exact Stack.marked_empty
  | cons outer rest => exact h.enclosing outer (by rw [he]; exact List.mem_cons_self)

theorem offer (h : s.Marked) (item : Value) (harvest : Harvest) :
    (harvest.offer item s).Marked := by
  cases harvest with
  | mapped results => exact h.pushed item
  | kept items => exact h.pushed item
  | reduced accumulator => exact (h.pushed accumulator).pushed item

end Session.Marked

namespace Eval

/-- The computation keeps the marks down, also where it fails. -/
def Marks {α : Type} (x : Eval α) : Prop :=
  ∀ s : Session, s.Marked → (finalState (x s)).Marked

namespace Marks
variable {α β : Type}

/-- The stacks are left alone. -/
theorem still {x : Eval α} (h : ∀ s, (finalState (x s)).stack = s.stack ∧
    (finalState (x s)).enclosing = s.enclosing) : Marks x := by
  intro s hs
  obtain ⟨hstack, henclosing⟩ := h s
  refine ⟨?_, ?_⟩
  · rw [hstack]
    exact hs.stack
  · rw [henclosing]
    exact hs.enclosing

theorem bind {x : Eval α} {f : α → Eval β} (hx : Marks x) (hf : ∀ a, Marks (f a)) :
    Marks (x >>= f) := by
  intro s hs
  have hmarked := hx s hs
  apply finalState_bind
  · intro a t hr
    rw [hr] at hmarked
    exact hf a t hmarked
  · intro error t hr
    rw [hr] at hmarked
    exact hmarked

theorem onStack {op : Stack.Op α} (h : Stack.Marks op) : Marks (onStack op) := by
  intro s hs
  have hop := h s.stack hs.stack
  rw [Eval.onStack]
  cases hr : op s.stack <;> rw [hr] at hop <;> exact ⟨hop, hs.enclosing⟩

theorem pure (a : α) : Marks (Pure.pure a) :=
  fun _ => id

theorem fail (kind : ErrorKind) : Marks (Eval.fail kind : Eval α) :=
  fun _ => id

theorem push (value : Value) : Marks (Eval.push value) :=
  fun _ hs => hs.pushed value

theorem height : Marks Eval.height :=
  fun _ => id

theorem binary (f : Float → Float → Float) : Marks (Eval.binary f) :=
  (onStack .popNumbers).bind fun _ => push _

theorem binaryNonzero (f : Float → Float → Float) : Marks (Eval.binaryNonzero f) := by
  refine (onStack .popNumbers).bind ?_
  rintro ⟨a, b⟩
  simp only
  split
  · exact fail _
  · exact push _

theorem define : Marks Eval.define := by
  refine (onStack ?_).bind fun _ => still fun _ => ⟨rfl, rfl⟩
  exact (Stack.Marks.require 2).bind fun _ => .bind .popQuotation fun _ =>
    .bind .popReference fun _ => .pure _

theorem addAlias : Marks Eval.addAlias := by
  refine (onStack ?_).bind fun operands => still fun s => ?_
  · exact (Stack.Marks.require 2).bind fun _ => .bind .popReference fun _ =>
      .bind .popReference fun _ => .pure _
  · simp only [get_bind_apply]
    cases s.dictionary.addAlias operands.1 operands.2 <;> exact ⟨rfl, rfl⟩

theorem sum : Marks Eval.sum := by
  refine (onStack .popSequence).bind fun items => ?_
  cases Eval.total 0 items with
  | ok value => exact push _
  | error kind => exact fail kind

theorem draw : Marks Eval.draw := by
  intro s hs
  cases he : s.enclosing with
  | nil =>
    rw [draw_outside he]
    exact hs
  | cons outer rest =>
    obtain ⟨houter, hrest⟩ := List.forall_mem_cons.1 (he ▸ hs.enclosing)
    have hpop := Stack.Marks.pop outer houter
    simp only [Eval.draw, he]
    cases hr : Stack.pop outer with
    | ok value t =>
      rw [hr] at hpop
      exact ⟨hs.stack.pushed value, List.forall_mem_cons.2 ⟨hpop, hrest⟩⟩
    | error kind t =>
      rw [hr] at hpop
      exact ⟨hs.stack, List.forall_mem_cons.2 ⟨hpop, hrest⟩⟩

theorem readNumber : Marks Eval.readNumber := by
  intro s hs
  simp only [Eval.readNumber, get_bind_apply]
  split
  · exact hs
  · simp only [modify_bind_apply]
    cases Eval.lineNumber? (Input.splitLine s.input).1 with
    | ok value => exact ⟨hs.stack.pushed _, hs.enclosing⟩
    | error kind => exact ⟨hs.stack, hs.enclosing⟩

theorem print : Marks Eval.print := by
  refine (onStack .pop).bind fun value => still fun s => ?_
  cases Output.writeLine value.render s.output <;> exact ⟨rfl, rfl⟩

/-- A primitive that calls nothing is finished once it has been invoked. -/
theorem finished {act : Eval Unit} (h : Marks act) :
    Marks (do
      let _ ← Eval.only act
      return Sequel.finished) :=
  (h.bind fun _ => pure _).bind fun _ => pure _

theorem start (operation : Primitive) : Marks (Eval.start operation) := by
  cases operation with
  | add | subtract | multiply | power | logarithm | larger | smaller | compare =>
    exact finished (binary _)
  | divide | remainder => exact finished (binaryNonzero _)
  | copy | copySecond => exact finished (onStack (.copyFromTop _))
  | swap | rotate3 => exact finished (onStack (.rotate _))
  | drop => exact finished ((onStack .pop).bind fun _ => pure _)
  | define => exact finished define
  | addAlias => exact finished addAlias
  | map | filter => exact (onStack .popSequenceBody).bind fun _ => height.bind fun _ => pure _
  | fold => exact (onStack .popSequenceStartBody).bind fun _ => height.bind fun _ => pure _
  | fold1 =>
    refine (onStack .popSequenceBody).bind ?_
    rintro ⟨items, body⟩
    cases items with
    | nil => exact fail _
    | cons first rest => exact height.bind fun _ => pure _
  | iterate =>
    refine (onStack ?_).bind fun _ => pure _
    exact (Stack.Marks.require 2).bind fun _ => .bind .popCount fun _ =>
      .bind .popQuotation fun _ => .pure _
  | choose =>
    refine (onStack ?_).bind ?_
    · exact (Stack.Marks.require 3).bind fun _ => .bind .pop fun _ => .bind .pop fun _ =>
        .bind .popNumber fun _ => .pure _
    rintro ⟨condition, whenTrue, whenFalse⟩
    simp only
    cases if condition != 0 then whenTrue else whenFalse with
    | quotation body => exact pure _
    | _ => exact (push _).bind fun _ => pure _
  | apply =>
    refine (onStack .pop).bind fun value => ?_
    cases value with
    | quotation body => exact pure _
    | reference name => exact pure _
    | _ => exact fail _
  | length => exact finished ((onStack .popSequence).bind fun _ => push _)
  | sum => exact finished sum
  | draw => exact finished draw
  | readNumber => exact finished readNumber
  | print => exact finished print

theorem accept (low base : Nat) : Marks (Eval.accept low base) := by
  refine height.bind fun left => ?_
  split
  · exact fail _
  · exact onStack .pop

end Marks

end Eval

theorem Moment.marked_advance {m n : Moment} (h : Advance m n) (hm : m.session.Marked) :
    n.session.Marked := by
  cases h with
  | number | quoted | quotation | gathered => exact hm.pushed _
  | scope => exact hm.scopeEntered
  | built => exact hm.scopeLeft.pushed _
  | @primitive name operation sequel frames s t hl hs =>
    have hk := Marks.start operation s hm
    rwa [hs] at hk
  | @failed name operation error frames s t hl hs =>
    have hk := Marks.start operation s hm
    rwa [hs] at hk
  | @offered frame body base harvest item items frames s =>
    exact ⟨Stack.marked_watched _, (hm.offer item harvest).enclosing⟩
  | @accepted outer item result loop frames s t ha =>
    have hk := Marks.accept s.stack.mark loop.base (watchLeft outer s)
      ⟨hm.stack.unwatched outer, hm.enclosing⟩
    rwa [ha] at hk
  | @rejected outer item loop error frames s t ha =>
    have hk := Marks.accept s.stack.mark loop.base (watchLeft outer s)
      ⟨hm.stack.unwatched outer, hm.enclosing⟩
    rwa [ha] at hk
  | @unwound error frame frames s =>
    cases frame with
    | scope => exact hm.scopeLeft
    | watch outer item loop => exact ⟨hm.stack.unwatched outer, hm.enclosing⟩
    | _ => exact ⟨hm.stack, hm.enclosing⟩
  | _ => exact ⟨hm.stack, hm.enclosing⟩

end StackCalc
