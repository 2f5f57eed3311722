import Mathlib.Data.List.Rotate
import StackCalc.Proofs.Outcome

/-!
Rotations one after the other. Each takes the deepest of the topmost values to the top, so these go
round: as many rotations as there are of them lead back to where they began. What lies below them
stays in its place. A word that rotates, written several times, turns them in the same way.
-/
namespace StackCalc

namespace Stack

/-- Rotates the top `count` values a number of times. -/
def rotations (count : Nat) : Nat → Op Unit
  | 0 => pure ()
  | times + 1 => do
    rotate count
    rotations count times

/-- The stack holds `below`, and on top of it `upper`, which has been turned a number of times. Both
are told from the bottom up, so that a turn takes the first of `upper` to the end. -/
structure Turned (s t : Stack) (below upper : List Value) (times : Nat) : Prop where
  before : s.fromBottom = below ++ upper
  after : t.fromBottom = below ++ upper.rotate times
  mark : t.mark = if times = 0 then s.mark else min s.mark below.length

namespace Turned
variable {s t u : Stack} {below upper : List Value} {times more : Nat}

theorem refl (h : s.fromBottom = below ++ upper) : s.Turned s below upper 0 :=
  ⟨h, by rw [h, List.rotate_zero], (if_pos rfl).symm⟩

theorem trans (h : s.Turned t below upper times)
    (h' : t.Turned u below (upper.rotate times) more) :
    s.Turned u below upper (times + more) where
  before := h.before
  after := by rw [h'.after, List.rotate_rotate]
  mark := by
    -- the first turn lowers the mark, and those after it find it there
    have hm := h.mark
    have hm' := h'.mark
    split at hm <;> split at hm' <;> split <;> omega

/-- Only the remainder of the number of turns counts. -/
theorem after_mod (h : s.Turned t below upper times) :
    t.fromBottom =
      below ++ (upper.drop (times % upper.length) ++ upper.take (times % upper.length)) := by
  rw [h.after, List.rotate_eq_drop_append_take_mod]

/-- One turn takes the deepest of the values to the top. -/
theorem exists_top (h : s.Turned t below upper 1) (hu : upper ≠ []) :
    ∃ value, s.fromBottom[below.length]? = some value ∧ t.top? = some value := by
  obtain ⟨lowest, rest, rfl⟩ := List.exists_cons_of_ne_nil hu
  have htop : t.top? = t.fromBottom.getLast? := by rw [top?, fromBottom, List.getLast?_reverse]
  refine ⟨lowest, ?_, ?_⟩
  · rw [h.before, List.getElem?_append_right (Nat.le_refl _), Nat.sub_self, List.getElem?_cons_zero]
  · rw [htop, h.after, List.rotate_cons_succ, List.rotate_zero, ← List.append_assoc,
      List.getLast?_concat]

/-- After a whole turn everything is in its place again. -/
theorem whole (h : s.Turned t below upper upper.length) : t.fromBottom = s.fromBottom := by
  rw [h.after, List.rotate_length, h.before]

end Turned

theorem bringToFront_concat (values : List Value) (lowest : Value) :
    bringToFront values.length (values ++ [lowest]) = lowest :: values := by
  have hget : (values ++ [lowest])[values.length]? = some lowest := List.getElem?_concat_length
  have herase : (values ++ [lowest]).eraseIdx values.length = values := by
    rw [List.eraseIdx_append_of_length_le (Nat.le_refl _), Nat.sub_self, List.eraseIdx_cons_zero,
      List.append_nil]
  rw [bringToFront, hget]
  exact congrArg (lowest :: ·) herase

section Split
variable {s : Stack} {below : List Value}

theorem height_of_append {upper : List Value} (h : s.fromBottom = below ++ upper) :
    s.height = below.length + upper.length := by
  rw [s.height_eq, ← List.length_reverse, ← List.length_append, ← h, fromBottom]

theorem exists_append {count : Nat} (h : count ≤ s.height) :
    ∃ below upper, s.fromBottom = below ++ upper ∧ upper.length = count := by
  refine ⟨s.fromBottom.take (s.height - count), s.fromBottom.drop (s.height - count), ?_, ?_⟩
  · exact (List.take_append_drop _ _).symm
  · rw [List.length_drop, fromBottom, List.length_reverse, ← s.height_eq]
    omega

/-- A rotation of all of `upper` is a turn. -/
theorem exists_turned {upper : List Value} (hu : upper ≠ []) (h : s.fromBottom = below ++ upper) :
    ∃ t, rotate upper.length s = .ok () t ∧ s.Turned t below upper 1 := by
  have hheight := height_of_append h
  have hcount : upper.length ≤ s.height := by omega
  obtain ⟨t, hrotate, hv, hm⟩ := rotate_of_le hcount
  obtain ⟨lowest, rest, rfl⟩ := List.exists_cons_of_ne_nil hu
  have hvalues : s.values = (rest.reverse ++ [lowest]) ++ below.reverse := by
    rw [← List.reverse_cons, ← List.reverse_append, ← h, fromBottom, List.reverse_reverse]
  have hlen : rest.length < (rest.reverse ++ [lowest]).length := by
    rw [List.length_append, List.length_reverse]
    exact Nat.lt_succ_self _
  have hfront : t.values = lowest :: (rest.reverse ++ below.reverse) := by
    rw [hv, hvalues, List.length_cons, Nat.add_sub_cancel, bringToFront_append _ hlen,
      ← List.length_reverse, bringToFront_concat, List.cons_append]
  refine ⟨t, hrotate, h, ?_, ?_⟩
  · calc t.fromBottom
        = (lowest :: (rest.reverse ++ below.reverse)).reverse := congrArg List.reverse hfront
      _ = below ++ (rest ++ [lowest]) := by
        rw [List.reverse_cons, List.reverse_append, List.reverse_reverse, List.reverse_reverse,
          List.append_assoc]
      _ = below ++ (lowest :: rest).rotate 1 := by rw [List.rotate_cons_succ, List.rotate_zero]
  · rw [hm, hheight, Nat.add_sub_cancel]
    rfl

/-- So many rotations of all of `upper` succeed, and are as many turns. -/
theorem exists_rotations {upper : List Value} (hu : upper ≠ [])
    (h : s.fromBottom = below ++ upper) (times : Nat) :
    ∃ t, rotations upper.length times s = .ok () t ∧ s.Turned t below upper times := by
  -- what is on top changes from turn to turn, but not how many values it is
  induction times generalizing s upper with
  | zero => exact ⟨s, rfl, .refl h⟩
  | succ times ih =>
    obtain ⟨t, hrotate, ht⟩ := exists_turned hu h
    obtain ⟨u, hrotations, hu'⟩ := ih (List.rotate_eq_nil_iff.not.2 hu) ht.after
    rw [List.length_rotate] at hrotations
    refine ⟨u, (bind_of_ok hrotate).trans hrotations, ?_⟩
    rw [Nat.add_comm]
    exact ht.trans hu'

end Split

/-- A copy of the value so many places below the top is pushed, and nothing else is done. -/
theorem exists_copyFromTop {s : Stack} {places : Nat} (h : places < s.height) :
    ∃ value t, s.fromBottom[s.height - 1 - places]? = some value ∧
      copyFromTop places s = .ok () t ∧ t.fromBottom = s.fromBottom ++ [value] ∧
      t.mark = s.mark := by
  have hlt : places < s.values.length := s.height_eq ▸ h
  have hplace : s.height - 1 - places < s.values.length := by
    rw [← s.height_eq]
    omega
  refine ⟨_, _, ?_, copyFromTop_of_lt hlt, fromBottom_pushed s _, rfl⟩
  rw [fromBottom, List.getElem?_reverse hplace, ← s.height_eq,
    show s.height - 1 - (s.height - 1 - places) = places by omega, List.getElem?_eq_getElem hlt]

/-- Rotations go round. Where there are too few values, a rotation fails and changes nothing. Else
any number of them succeeds: they leave what is below the topmost `count` values in place, and turn
those by the remainder of that number, the deepest going to the top each time. So `count` rotations
leave every value where it was, and one less than that undo one rotation. A copy pushes the value at
its place below the top and does nothing else; where there is no such place, it fails and changes
nothing. -/
theorem rotations_cyclic {count : Nat} (hc : 0 < count) (s : Stack) :
    (s.height < count → rotate count s = .error (.stackUnderflow count s.height) s) ∧
      (count ≤ s.height → ∃ below upper, s.fromBottom = below ++ upper ∧ upper.length = count ∧
        (∀ times, ∃ t, rotations count times s = .ok () t ∧
          t.fromBottom = below ++ (upper.drop (times % count) ++ upper.take (times % count)) ∧
          t.mark = (if times = 0 then s.mark else min s.mark below.length) ∧
          ∃ u value, rotate count t = .ok () u ∧
            t.fromBottom[below.length]? = some value ∧ u.top? = some value) ∧
        (∃ t, rotations count count s = .ok () t ∧ t.fromBottom = s.fromBottom) ∧
        ∃ t u, rotate count s = .ok () t ∧ rotations count (count - 1) t = .ok () u ∧
          u.fromBottom = s.fromBottom) ∧
      ∀ (t : Stack) (places : Nat),
        (places < t.height → ∃ value u, t.fromBottom[t.height - 1 - places]? = some value ∧
          copyFromTop places t = .ok () u ∧ u.fromBottom = t.fromBottom ++ [value] ∧
          u.mark = t.mark) ∧
        (t.height < places + 1 →
          copyFromTop places t = .error (.stackUnderflow (places + 1) t.height) t) := by
  refine ⟨rotate_of_short, fun h => ?_, fun t places =>
    ⟨exists_copyFromTop, copyFromTop_of_short⟩⟩
  obtain ⟨below, upper, hs, rfl⟩ := exists_append h
  have hu : upper ≠ [] := List.ne_nil_of_length_pos hc
  refine ⟨below, upper, hs, rfl, fun times => ?_, ?_, ?_⟩
  · obtain ⟨t, hrun, ht⟩ := exists_rotations hu hs times
    have hturned : upper.rotate times ≠ [] := List.rotate_eq_nil_iff.not.2 hu
    obtain ⟨u, hrotate, hu'⟩ := exists_turned hturned ht.after
    obtain ⟨value, hvalue, htop⟩ := hu'.exists_top hturned
    rw [List.length_rotate] at hrotate
    exact ⟨t, hrun, ht.after_mod, ht.mark, u, value, hrotate, hvalue, htop⟩
  · obtain ⟨t, hrun, ht⟩ := exists_rotations hu hs upper.length
    exact ⟨t, hrun, ht.whole⟩
  · obtain ⟨t, hrotate, ht⟩ := exists_turned hu hs
    have hturned : upper.rotate 1 ≠ [] := List.rotate_eq_nil_iff.not.2 hu
    obtain ⟨u, hrest, hu'⟩ := exists_rotations hturned ht.after (upper.length - 1)
    have hwhole := ht.trans hu'
    rw [Nat.add_sub_cancel' hc] at hwhole
    rw [List.length_rotate] at hrest
    exact ⟨t, u, hrotate, hrest, hwhole.whole⟩

/-- Five rotations of three values are two. -/
theorem rotations_cyclic_three :
    0 < 3 ∧ ∃ t, rotations 3 5
        (ofBottom [.reference "a", .reference "b", .reference "c", .reference "d"]) = .ok () t ∧
      t.fromBottom = [.reference "a", .reference "d", .reference "b", .reference "c"] := by
  refine ⟨by decide, ?_⟩
  obtain ⟨below, upper, hs, hlen, hturns, -⟩ := (rotations_cyclic (by decide : 0 < 3)
    (ofBottom [.reference "a", .reference "b", .reference "c", .reference "d"])).2.1 (by decide)
  obtain ⟨t, hrun, ht, -⟩ := hturns 5
  obtain ⟨rfl, rfl⟩ : [.reference "a"] = below ∧
      [.reference "b", .reference "c", .reference "d"] = upper :=
    List.append_inj' hs hlen.symm
  exact ⟨t, hrun, ht⟩

end Stack

/-- How many values a primitive rotates, if that is what it does. -/
def Primitive.rotated? : Primitive → Option Nat
  | .swap => some 2
  | .rotate3 => some 3
  | _ => none

namespace Eval

theorem invoke_of_rotated? {operation : Primitive} {count : Nat}
    (hp : operation.rotated? = some count) (call : Caller) :
    invoke call operation = only (onStack (Stack.rotate count)) := by
  cases operation <;> cases hp <;> rfl

/-- A word that rotates, written a number of times, does so many rotations and nothing else. -/
theorem run_of_rotations {operation : Primitive} {name : String} {count times : Nat}
    (hp : operation.rotated? = some count) (call : Caller) {s : Session} {tokens : List Token}
    {t : Stack} (hl : s.dictionary.lookup? name = some (.primitive operation))
    (hk : tokens.map (·.kind) = List.replicate times (.word name))
    (hr : Stack.rotations count times s.stack = .ok () t) :
    run call tokens s = .ok () { s with stack := t } := by
  induction times generalizing s tokens with
  | zero =>
    obtain rfl := List.map_eq_nil_iff.1 hk
    cases hr
    rw [run_nil]
    rfl
  | succ times ih =>
    obtain ⟨⟨_, position⟩, rest, rfl, rfl, hrest⟩ := List.map_eq_cons_iff.1 hk
    obtain ⟨_, u, hrotate, hrotations⟩ := bind_eq_ok.1 hr
    have hi : invoke call operation s = .ok none { s with stack := u } := by
      rw [invoke_of_rotated? hp]
      exact only_eq_ok.2 ⟨onStack_eq_ok.2 ⟨u, hrotate, rfl⟩, rfl⟩
    rw [run_word, bind_of_ok (execute_primitive_ok hl hi)]
    -- the dictionary is as it was, so the word still means the same
    exact ih (s := { s with stack := u }) hl hrest hrotations

/-- Written as often as there are values that it moves, a word that rotates leaves all of them where
they were. -/
theorem evaluate_whole_turn {operation : Primitive} {name : String} {count : Nat}
    (hp : operation.rotated? = some count) {s : Session} {tokens : List Token}
    (hl : s.dictionary.lookup? name = some (.primitive operation))
    (hk : tokens.map (·.kind) = List.replicate count (.word name)) (hs : count ≤ s.stack.height) :
    ∃ t, t.fromBottom = s.stack.fromBottom ∧ evaluate tokens s = .ok () { s with stack := t } := by
  obtain ⟨below, upper, hsplit, rfl⟩ := Stack.exists_append hs
  have hu : upper ≠ [] := by
    rintro rfl
    cases operation <;> cases hp
  obtain ⟨t, hrun, ht⟩ := Stack.exists_rotations hu hsplit upper.length
  exact ⟨t, ht.whole, run_of_rotations hp _ hl hk hrun⟩

end Eval

end StackCalc
