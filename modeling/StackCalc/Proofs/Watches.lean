import StackCalc.Proofs.Marks

/-!
Watches on a stack, one inside the other. They share the mark: a watch that starts replaces it, and
one that ends merges it with the mark that it had replaced. So the mark at the end of a watch is the
least height to which the stack was cut down or rearranged during it, and for the enclosing watch it
is as if there had been no other.
-/
namespace StackCalc.Stack

/-- What is done to a stack that may be under watch. -/
inductive Action
  | push (value : Value)
  | pop
  | copyFromTop (places : Nat)
  /-- Moves the lowest of the top `places + 1` values to the top. -/
  | rotate (places : Nat)
  /-- Starts a watch. -/
  | watch
  /-- Ends the innermost watch. -/
  | take

/-- A stack, and the marks that its open watches have replaced, the innermost first. -/
@[ext] structure Watching where
  stack : Stack
  outer : List Nat

namespace Action

/-- Neither starts a watch nor ends one. -/
def isPlain : Action → Bool
  | .watch | .take => false
  | _ => true

/-- What becomes of the values. -/
def onValues : Action → List Value → List Value
  | .push value, values => value :: values
  | .pop, values => values.tail
  | .copyFromTop places, values => values[places]?.toList ++ values
  | .rotate places, values => bringToFront places values
  | .watch, values | .take, values => values

end Action

/-- Every watch that starts ends, and none ends that has not started. -/
inductive Paired : List Action → Prop
  | nil : Paired []
  | plain {action : Action} {rest : List Action} :
      action.isPlain = true → Paired rest → Paired (action :: rest)
  | watched {inner rest : List Action} :
      Paired inner → Paired rest → Paired (.watch :: (inner ++ .take :: rest))

namespace Watching

/-- Ends the innermost watch: the mark it returns, and what is left. -/
def taken (w : Watching) : Nat × Watching :=
  match w.outer with
  | [] => (w.stack.mark, w)
  | mark :: outer => (w.stack.mark, ⟨w.stack.unwatched mark, outer⟩)

/-- An action, which may fail. -/
def perform (w : Watching) : Action → Watching
  | .push value => { w with stack := finalState (Stack.push value w.stack) }
  | .pop => { w with stack := finalState (Stack.pop w.stack) }
  | .copyFromTop places => { w with stack := finalState (Stack.copyFromTop places w.stack) }
  | .rotate places => { w with stack := finalState (Stack.rotate (places + 1) w.stack) }
  | .watch => ⟨w.stack.watched, w.stack.mark :: w.outer⟩
  | .take => w.taken.2

def performAll (w : Watching) (actions : List Action) : Watching :=
  actions.foldl perform w

/-- The index from which on an action has cut the stack down or rearranged it: the height that a pop
leaves, whether it fails or not, and the lowest place that a rotation changes. -/
def touch? (w : Watching) : Action → Option Nat
  | .pop => some (w.perform .pop).stack.height
  | .rotate places =>
    if places < w.stack.height then some (w.stack.height - (places + 1)) else none
  | _ => none

def touched (w : Watching) : List Action → List Nat
  | [] => []
  | action :: rest => (w.touch? action).toList ++ (w.perform action).touched rest

theorem performAll_append (w : Watching) (front rest : List Action) :
    w.performAll (front ++ rest) = (w.performAll front).performAll rest :=
  List.foldl_append

theorem touched_append (w : Watching) (front rest : List Action) :
    w.touched (front ++ rest) = w.touched front ++ (w.performAll front).touched rest := by
  induction front generalizing w with
  | nil => rfl
  | cons action front ih =>
    rw [List.cons_append, touched, touched, ih, List.append_assoc]
    rfl

end Watching

/-! Watches leave the values alone, and the values alone decide what is done. -/

section Values
variable {w w' : Watching}

theorem values_rotate (places : Nat) (s : Stack) :
    (finalState (rotate (places + 1) s)).values = bringToFront places s.values := by
  rw [rotate]
  split
  next h =>
    rw [s.height_eq] at h
    rw [bringToFront, List.getElem?_eq_none (by omega)]
    rfl
  next => rfl

namespace Watching

theorem values_perform (w : Watching) (action : Action) :
    (w.perform action).stack.values = action.onValues w.stack.values := by
  cases action with
  | push value => rfl
  | pop =>
    cases hv : w.stack.values with
    | nil => simp only [perform, Action.onValues, pop_of_nil hv, finalState, hv, List.tail_nil]
    | cons value rest =>
      obtain ⟨t, hp, ht, -⟩ := pop_of_cons hv
      simp only [perform, Action.onValues, hp, finalState, ht, List.tail_cons]
  | copyFromTop places =>
    by_cases hp : places < w.stack.values.length
    · simp only [perform, Action.onValues, copyFromTop_of_lt hp, List.getElem?_eq_getElem hp]
      rfl
    · have hshort : w.stack.height < places + 1 := by
        rw [w.stack.height_eq]
        omega
      simp only [perform, Action.onValues, copyFromTop_of_short hshort,
        List.getElem?_eq_none (Nat.le_of_not_lt hp)]
      rfl
  | rotate places => exact values_rotate places w.stack
  | watch => rfl
  | take =>
    simp only [perform, taken, Action.onValues]
    split <;> rfl

theorem values_performAll (w : Watching) (actions : List Action) :
    (w.performAll actions).stack.values =
      actions.foldl (fun values action => action.onValues values) w.stack.values := by
  induction actions generalizing w with
  | nil => rfl
  | cons action rest ih =>
    rw [List.foldl_cons, ← values_perform]
    exact ih _

theorem touch?_congr (h : w.stack.values = w'.stack.values) (action : Action) :
    w.touch? action = w'.touch? action := by
  have hheight : w.stack.height = w'.stack.height := by
    rw [w.stack.height_eq, w'.stack.height_eq, h]
  cases action with
  | pop =>
    rw [touch?, touch?, Stack.height_eq, Stack.height_eq, values_perform, values_perform, h]
  | rotate places => rw [touch?, touch?, hheight]
  | _ => rfl

theorem touched_congr (h : w.stack.values = w'.stack.values) (actions : List Action) :
    w.touched actions = w'.touched actions := by
  -- the two stacks may differ in their marks all the way
  induction actions generalizing w w' with
  | nil => rfl
  | cons action rest ih =>
    have hnext : (w.perform action).stack.values = (w'.perform action).stack.values := by
      rw [values_perform, values_perform, h]
    rw [touched, touched, touch?_congr h, ih hnext]

/-- A watch does not change what is touched. -/
theorem touched_watched (w : Watching) (actions : List Action) :
    (w.perform .watch).touched actions = w.touched actions := by
  have hvalues : (w.perform .watch).stack.values = w.stack.values := rfl
  exact touched_congr hvalues actions

end Watching

end Values

/-! The mark is never above the height. -/

/-- A copy leaves the mark alone, and so does one that fails. -/
theorem mark_copyFromTop (places : Nat) (s : Stack) :
    (finalState (copyFromTop places s)).mark = s.mark := by
  by_cases hp : places < s.values.length
  · rw [copyFromTop_of_lt hp]
    rfl
  · have hshort : s.height < places + 1 := by
      rw [s.height_eq]
      omega
    rw [copyFromTop_of_short hshort]
    rfl

namespace Watching
variable {w : Watching}

theorem marked_perform (h : w.stack.Marked) (action : Action) :
    (w.perform action).stack.Marked := by
  cases action with
  | push value => exact h.pushed value
  | pop => exact Marks.pop w.stack h
  | copyFromTop places => exact Marks.copyFromTop places w.stack h
  | rotate places => exact Marks.rotate (places + 1) w.stack h
  | watch => exact marked_watched w.stack
  | take =>
    simp only [perform, taken]
    split
    · exact h
    · exact h.unwatched _

theorem marked_performAll (h : w.stack.Marked) (actions : List Action) :
    (w.performAll actions).stack.Marked := by
  induction actions generalizing w with
  | nil => exact h
  | cons action rest ih => exact ih (marked_perform h action)

end Watching

/-! What a paired sequence of actions does, from one action on. -/

/-- The lowest `n` values are the same. -/
def SameBelow (n : Nat) (s t : Stack) : Prop :=
  t.fromBottom.take n = s.fromBottom.take n

namespace SameBelow
variable {m n : Nat} {s t u : Stack}

theorem of_append {below : List Value} (upper upper' : List Value)
    (hs : s.values = upper ++ below) (ht : t.values = upper' ++ below) (hn : n ≤ below.length) :
    SameBelow n s t := by
  have hlen : n ≤ below.reverse.length := by rwa [List.length_reverse]
  rw [SameBelow, fromBottom, fromBottom, hs, ht, List.reverse_append, List.reverse_append,
    List.take_append_of_le_length hlen, List.take_append_of_le_length hlen]

theorem mono (h : SameBelow n s t) (hm : m ≤ n) : SameBelow m s t := by
  have htake := congrArg (List.take m) h
  rwa [List.take_take, List.take_take, Nat.min_eq_left hm] at htake

theorem trans (h : SameBelow n s t) (ht : SameBelow n t u) : SameBelow n s u :=
  Eq.trans ht h

end SameBelow

namespace Watching
variable {w : Watching} {action : Action}

/-- What is below the mark after an action has stayed where it was. -/
theorem sameBelow_perform (h : w.stack.Marked) (hp : action.isPlain = true) :
    SameBelow (w.perform action).stack.mark w.stack (w.perform action).stack := by
  have hmark : w.stack.mark ≤ w.stack.values.length := w.stack.height_eq ▸ h
  have hvalues := values_perform w action
  cases action with
  | push value => exact .of_append [] [value] rfl hvalues hmark
  | pop =>
    cases hv : w.stack.values with
    | nil => simp only [perform, pop_of_nil hv, finalState, SameBelow]
    | cons value rest =>
      obtain ⟨t, hp, ht, hm⟩ := pop_of_cons hv
      simp only [perform, hp, finalState]
      refine .of_append [value] [] hv ht ?_
      rw [hm]
      exact Nat.min_le_right _ _
  | copyFromTop places =>
    refine .of_append [] _ rfl hvalues ?_
    rw [perform, mark_copyFromTop]
    exact hmark
  | rotate places =>
    by_cases hshort : w.stack.height < places + 1
    · simp only [perform, rotate, if_pos hshort, finalState, SameBelow]
    · -- the rotation changes the order of the upper values only
      have hupper : places < (w.stack.values.take (places + 1)).length := by
        rw [List.length_take, ← w.stack.height_eq]
        omega
      have hsplit := List.take_append_drop (places + 1) w.stack.values
      rw [Action.onValues, ← hsplit, bringToFront_append _ hupper] at hvalues
      refine .of_append _ _ hsplit.symm hvalues ?_
      simp only [perform, rotate, if_neg hshort, finalState, List.length_drop,
        ← w.stack.height_eq]
      exact Nat.min_le_right _ _
  | watch => cases hp
  | take => cases hp

theorem mark_perform (h : w.stack.Marked) (hp : action.isPlain = true) :
    (w.perform action).stack.mark = (w.touch? action).toList.foldl min w.stack.mark := by
  cases action with
  | push value => rfl
  | pop =>
    cases hv : w.stack.values with
    | nil =>
      -- nothing is taken off, and the mark is at the bottom
      have hheight : w.stack.height = 0 := by rw [w.stack.height_eq, hv, List.length_nil]
      rw [Marked, hheight, Nat.le_zero] at h
      simp only [touch?, perform, pop_of_nil hv, finalState, Option.toList, List.foldl, h, hheight]
      rfl
    | cons value rest =>
      obtain ⟨t, hp, ht, hm⟩ := pop_of_cons hv
      simp only [touch?, perform, hp, finalState, Option.toList, List.foldl, hm, t.height_eq, ht]
  | copyFromTop places => exact mark_copyFromTop places w.stack
  | rotate places =>
    by_cases hshort : w.stack.height < places + 1
    · simp only [touch?, perform, rotate, if_pos hshort,
        if_neg (Nat.not_lt.2 (Nat.le_of_lt_succ hshort)), finalState, Option.toList, List.foldl]
    · have hlt : places < w.stack.height := by omega
      simp only [touch?, perform, rotate, if_neg hshort, if_pos hlt, finalState, Option.toList,
        List.foldl]
  | watch => cases hp
  | take => cases hp

theorem outer_perform (hp : action.isPlain = true) : (w.perform action).outer = w.outer := by
  cases action with
  | watch => cases hp
  | take => cases hp
  | _ => rfl

/-- What paired actions do: the watches they are made under are the same as before, the mark has
learnt of everything they have touched, and what is below it is still there. -/
structure Follows (w : Watching) (actions : List Action) : Prop where
  outer : (w.performAll actions).outer = w.outer
  mark : (w.performAll actions).stack.mark = (w.touched actions).foldl min w.stack.mark
  same : SameBelow (w.performAll actions).stack.mark w.stack (w.performAll actions).stack

namespace Follows
variable {actions : List Action}

theorem mark_le (h : w.Follows actions) : (w.performAll actions).stack.mark ≤ w.stack.mark := by
  rw [h.mark, List.foldl_min]
  exact Nat.min_le_left _ _

theorem cons {rest : List Action} (hw : w.stack.Marked) (hp : action.isPlain = true)
    (h : (w.perform action).Follows rest) : w.Follows (action :: rest) where
  outer := h.outer.trans (outer_perform hp)
  mark := by
    rw [touched, List.foldl_append, ← mark_perform hw hp]
    exact h.mark
  same := ((sameBelow_perform hw hp).mono h.mark_le).trans h.same

theorem append {rest : List Action} (h : w.Follows actions)
    (hr : (w.performAll actions).Follows rest) : w.Follows (actions ++ rest) := by
  refine ⟨?_, ?_, ?_⟩
  · rw [performAll_append, hr.outer, h.outer]
  · rw [performAll_append, touched_append, List.foldl_append, ← h.mark, hr.mark]
  · rw [performAll_append]
    exact (h.same.mono hr.mark_le).trans hr.same

/-- A watch around the actions returns the least index that they have touched, and is then as if it
had not been. -/
theorem taken_watched (hw : w.stack.Marked) (h : w.Follows actions)
    (hwatched : (w.perform .watch).Follows actions) :
    (w.performAll (.watch :: actions)).taken =
      (((w.perform .watch).touched actions).foldl min w.stack.height, w.performAll actions) := by
  have hmark : (w.performAll (.watch :: actions)).stack.mark =
      ((w.perform .watch).touched actions).foldl min w.stack.height :=
    hwatched.mark
  have houter : (w.performAll (.watch :: actions)).outer = w.stack.mark :: w.outer :=
    hwatched.outer
  have hleft : (⟨(w.performAll (.watch :: actions)).stack.unwatched w.stack.mark, w.outer⟩ :
      Watching) = w.performAll actions := by
    refine Watching.ext (Stack.ext ?_ ?_) h.outer.symm
    · exact (values_performAll (w.perform .watch) actions).trans (values_performAll w actions).symm
    · -- the mark that was replaced is not above the height at which the watch started
      calc min w.stack.mark (w.performAll (.watch :: actions)).stack.mark
          = min w.stack.mark ((w.touched actions).foldl min w.stack.height) := by
            rw [hmark, touched_watched]
        _ = (w.touched actions).foldl min (min w.stack.mark w.stack.height) :=
            List.foldl_assoc.symm
        _ = (w.touched actions).foldl min w.stack.mark := by rw [Nat.min_eq_left hw]
        _ = (w.performAll actions).stack.mark := h.mark.symm
  simp only [taken, houter, hmark, hleft]

theorem watched (hw : w.stack.Marked) (h : w.Follows actions)
    (hwatched : (w.perform .watch).Follows actions) :
    w.Follows (.watch :: (actions ++ [.take])) := by
  have hrun : w.performAll (.watch :: (actions ++ [.take])) = w.performAll actions := by
    rw [← List.cons_append, performAll_append]
    exact congrArg Prod.snd (taken_watched hw h hwatched)
  have htouched : w.touched (.watch :: (actions ++ [.take])) = w.touched actions := by
    rw [touched, touched_append, touched_watched]
    exact List.append_nil _
  refine ⟨?_, ?_, ?_⟩
  · rw [hrun, h.outer]
  · rw [hrun, htouched, h.mark]
  · rw [hrun]
    exact h.same

end Follows

/-- What the actions do, by the pairs of watches among them. -/
theorem follows_of_paired {actions : List Action} (h : Paired actions) (hw : w.stack.Marked) :
    w.Follows actions := by
  -- over the pairs of watches, from any start: the actions inside are followed under their own
  -- watch and as they would be without it
  induction h generalizing w with
  | nil => exact ⟨rfl, rfl, rfl⟩
  | plain hp _ ih => exact .cons hw hp (ih (marked_perform hw _))
  | @watched inner rest _ _ ihi ihr =>
    have hpair := Follows.watched hw (ihi hw) (ihi (marked_perform hw .watch))
    have hall := hpair.append (ihr (marked_performAll hw _))
    rwa [List.cons_append, List.append_assoc] at hall

end Watching

/-- Marks are exact, whatever watches lie inside or around: a watch that starts after any actions
and ends after paired ones returns the least of the height at its start and of the indices that
those actions have touched. It leaves everything as the actions alone would have left it, so that
the enclosing watches learn the same. What is below the mark that it returns was there when it
started. And no mark is ever above the height. -/
theorem watch_exact {w : Watching} (hw : w.stack.Marked) :
    (∀ actions, (w.performAll actions).stack.Marked) ∧
      ∀ before inner start stop low, Paired inner → start = w.performAll before →
        stop = start.performAll (.watch :: inner) →
        low = ((start.perform .watch).touched inner).foldl min start.stack.height →
          stop.taken = (low, start.performAll inner) ∧
            low ≤ start.stack.height ∧ low ≤ stop.stack.height ∧
            stop.stack.fromBottom.take low = start.stack.fromBottom.take low ∧
            ∀ after, w.performAll (before ++ .watch :: (inner ++ .take :: after)) =
              w.performAll (before ++ (inner ++ after)) := by
  refine ⟨Watching.marked_performAll hw, ?_⟩
  rintro before inner start stop low hinner hstart rfl rfl
  have hmarked : start.stack.Marked := hstart ▸ Watching.marked_performAll hw before
  have hwatched := Watching.follows_of_paired hinner (Watching.marked_perform hmarked .watch)
  have htaken := Watching.Follows.taken_watched hmarked
    (Watching.follows_of_paired hinner hmarked) hwatched
  have hlow : (start.performAll (.watch :: inner)).stack.mark =
      ((start.perform .watch).touched inner).foldl min start.stack.height :=
    hwatched.mark
  refine ⟨htaken, ?_, ?_, ?_, fun after => ?_⟩
  · rw [← hlow]
    exact hwatched.mark_le
  · rw [← hlow]
    exact Watching.marked_performAll hmarked (.watch :: inner)
  · rw [← hlow]
    exact hwatched.same
  · have htake : (start.performAll (.watch :: inner)).perform .take = start.performAll inner :=
      congrArg Prod.snd htaken
    rw [Watching.performAll_append, ← hstart, ← List.cons_append, Watching.performAll_append,
      Watching.performAll_append, ← hstart, Watching.performAll_append, ← htake]
    rfl

/-- What an inner watch has seen, the outer one returns. -/
theorem watch_exact_nested :
    ((⟨ofBottom [.reference "a", .reference "b"], []⟩ : Watching).performAll
      [.watch, .push (.reference "c"), .watch, .pop, .pop, .take, .push (.reference "d")]).taken.1 =
      1 := by
  have hpaired : Paired
      [.push (.reference "c"), .watch, .pop, .pop, .take, .push (.reference "d")] :=
    .plain rfl (.watched (.plain rfl (.plain rfl .nil)) (.plain rfl .nil))
  have hmarked : (ofBottom [.reference "a", .reference "b"]).Marked := Nat.zero_le _
  have htaken := ((watch_exact (w := ⟨_, []⟩) hmarked).2 [] _ _ _ _ hpaired rfl rfl rfl).1
  exact congrArg Prod.fst htaken

end StackCalc.Stack
