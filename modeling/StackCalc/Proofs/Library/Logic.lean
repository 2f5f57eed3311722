import StackCalc.Proofs.Decimal.Signs
import StackCalc.Proofs.Library.Words

/-!
Truth and the words of the library for it. `if` and `filter` take any number but zero for true, also
what is not a number. The words of the library come to truth through comparisons with zero, in which
what is not a number counts as zero, and `and` through a product, which is zero where it is too
small. They agree with `if` but for that.
-/
namespace StackCalc

open Arithmetic Binary64 Eval

namespace Prelude

def eqWords : List String :=
  ["eq", "cmp", "dup", "mul", "swap", "sub"]

def gtWords : List String :=
  ["gt", "cmp", "max"]

def absWords : List String :=
  ["abs", "sign", "cmp", "dup", "mul"]

/-- The logical words, and the words that these come down to. -/
def logicWords : List String :=
  ["not", "and", "or", "add", "swap"] ++ eqWords ++ gtWords ++ absWords

/-- What the library leaves for true and for false. -/
def flag (p : Bool) : Float :=
  if p then 1 else 0

end Prelude

open Prelude

namespace Dictionary

/-! What the words compute, in terms of the primitives. -/

section Words
variable {d : Dictionary}

theorem rewrites_sign (h : d.Keeps absWords) (x : Float) :
    d.Rewrites 1 [.word "sign"] [.number x] [.number (comparison x 0)] := by
  refine .library h (by decide) rfl ?_
  refine .number 0 ?_
  exact .primitive (h.lookup?_primitive .compare (by decide)) rfl .nil

theorem rewrites_abs (h : d.Keeps absWords) (x : Float) :
    d.Rewrites 2 [.word "abs"] [.number x] [.number (x * comparison x 0)] := by
  refine .library h (by decide) rfl ?_
  refine .primitive (h.lookup?_primitive .copy (by decide)) rfl ?_
  refine .word (rewrites_sign h x) ?_
  exact .primitive (h.lookup?_primitive .multiply (by decide)) rfl .nil

theorem rewrites_eq (h : d.Keeps eqWords) (x y : Float) :
    d.Rewrites 1 [.word "eq"] [.number y, .number x]
      [.number (1 - comparison x y * comparison x y)] := by
  refine .library h (by decide) rfl ?_
  refine .primitive (h.lookup?_primitive .compare (by decide)) rfl ?_
  refine .primitive (h.lookup?_primitive .copy (by decide)) rfl ?_
  refine .primitive (h.lookup?_primitive .multiply (by decide)) rfl ?_
  refine .number 1 ?_
  refine .primitive (h.lookup?_primitive .swap (by decide)) rfl ?_
  exact .primitive (h.lookup?_primitive .subtract (by decide)) rfl .nil

theorem rewrites_gt (h : d.Keeps gtWords) (x y : Float) :
    d.Rewrites 1 [.word "gt"] [.number y, .number x]
      [.number (larger (comparison x y) 0)] := by
  refine .library h (by decide) rfl ?_
  refine .primitive (h.lookup?_primitive .compare (by decide)) rfl ?_
  refine .number 0 ?_
  exact .primitive (h.lookup?_primitive .larger (by decide)) rfl .nil

theorem isNone_side?_flag (p : Bool) : (side? (flag p)).isNone = !p := by
  cases p <;> rfl

/-- In a test for equality with zero what is not a number counts as zero. -/
theorem rewrites_eq_zero (h : d.Keeps eqWords) (x : Float) :
    d.Rewrites 1 [.word "eq"] [.number 0, .number x] [.number (flag (side? x).isNone)] := by
  have hsquare : 1 - comparison x 0 * comparison x 0 = flag (side? x).isNone := by
    rw [comparison_zero]
    cases side? x with
    | none => rfl
    | some sign => cases sign <;> rfl
  exact hsquare ▸ rewrites_eq h x 0

theorem rewrites_gt_zero (h : d.Keeps gtWords) (x : Float) :
    d.Rewrites 1 [.word "gt"] [.number 0, .number x] [.number (flag (0 < x))] := by
  have hlarger : larger (comparison x 0) 0 = flag (0 < x) := by
    by_cases hpos : 0 < x
    · rw [decide_eq_true hpos, comparison_zero, pos_iff.1 hpos]
      rfl
    · rw [decide_eq_false hpos, comparison_zero]
      cases hx : side? x with
      | none => rfl
      | some sign =>
        cases sign with
        | positive => exact absurd (pos_iff.2 hx) hpos
        | negative => rfl
  exact hlarger ▸ rewrites_gt h x 0

theorem rewrites_not (h : d.Keeps logicWords) (x : Float) :
    d.Rewrites 2 [.word "not"] [.number x] [.number (flag (side? x).isNone)] := by
  refine .library h (by decide) rfl ?_
  refine .number 0 ?_
  exact .word (rewrites_eq_zero (h.mono (by decide)) x) .nil

theorem rewrites_and (h : d.Keeps logicWords) (x y : Float) :
    d.Rewrites 3 [.word "and"] [.number y, .number x] [.number (flag (side? (x * y)).isSome)] := by
  have hnot := rewrites_not h (flag (side? (x * y)).isNone)
  rw [isNone_side?_flag, Option.not_isNone] at hnot
  refine .library h (by decide) rfl ?_
  refine .primitive (h.lookup?_primitive .multiply (by decide)) rfl ?_
  refine .number 0 ?_
  refine .word ((rewrites_eq_zero (h.mono (by decide)) (x * y)).mono (Nat.le_succ 1)) ?_
  exact .word hnot .nil

/-- The sum of the magnitudes, of which the second is worked out first. -/
theorem rewrites_or (h : d.Keeps logicWords) (x y : Float) :
    d.Rewrites 3 [.word "or"] [.number y, .number x]
      [.number (flag (0 < y * comparison y 0 + x * comparison x 0))] := by
  refine .library h (by decide) rfl ?_
  refine .word (rewrites_abs (h.mono (by decide)) y) ?_
  refine .primitive (h.lookup?_primitive .swap (by decide)) rfl ?_
  refine .word (rewrites_abs (h.mono (by decide)) x) ?_
  refine .primitive (h.lookup?_primitive .add (by decide)) rfl ?_
  refine .number 0 ?_
  exact .word ((rewrites_gt_zero (h.mono (by decide)) _).mono (Nat.le_succ 1)) .nil

end Words

end Dictionary

/-! What they leave, in terms of truth. -/

section Truth
variable (x y : Float)

theorem isTrue_number : (Value.number x).isTrue = ((side? x).isSome || x.isNaN) :=
  bne_zero x

theorem isSome_side? : (side? x).isSome = ((Value.number x).isTrue && !x.isNaN) := by
  rw [isTrue_number]
  cases hx : side? x with
  | none => cases x.isNaN <;> rfl
  | some sign =>
    rw [isNaN_of_side? hx]
    rfl

theorem isSome_side?_product : (side? (x * y)).isSome =
    ((Value.number x).isTrue && (Value.number y).isTrue && !x.isNaN && !y.isNaN &&
      x * y != 0) := by
  rw [isSome_side?_mul, isSome_side?, isSome_side?]
  ac_rfl

theorem side?_magnitude_ne : side? (x * comparison x 0) ≠ some .negative := by
  rw [side?_magnitude]
  cases side? x <;> simp

theorem magnitude_pos_iff : 0 < x * comparison x 0 ↔ (side? x).isSome = true := by
  rw [pos_iff, side?_magnitude]
  cases side? x <;> simp

theorem magnitudes_pos : decide (0 < y * comparison y 0 + x * comparison x 0) =
    (((Value.number x).isTrue || (Value.number y).isTrue) && !x.isNaN && !y.isNaN) := by
  rw [Bool.eq_iff_iff, decide_eq_true_iff,
    add_pos_iff (side?_magnitude_ne y) (side?_magnitude_ne x), isNaN_magnitude, isNaN_magnitude,
    magnitude_pos_iff, magnitude_pos_iff, isTrue_number, isTrue_number]
  cases x.isNaN <;> cases y.isNaN <;> simp [or_comm]

end Truth

namespace Eval

/-- What `if` does with the branch that it takes. -/
def branch (call : Caller) (frame : String) : Value → Eval Unit
  | .quotation body => call frame body
  | value => push value

/-- `if` takes the first branch for a number that is true. -/
theorem exists_choose {s : Session} {whenTrue whenFalse : Value} {x : Float} {below : List Value}
    (h : s.stack.values = [whenFalse, whenTrue, .number x] ++ below) :
    ∃ left : Stack, s.stack.Rewritten left [whenFalse, whenTrue, .number x] [] below ∧
      ∀ call frame, choose call frame s =
        branch call frame (if (Value.number x).isTrue then whenTrue else whenFalse)
          { s with stack := left } := by
  obtain ⟨settings, dictionary, ⟨values, height, mark, hheight⟩, enclosing, depth, input, output⟩ :=
    s
  cases h
  cases hheight
  refine ⟨⟨below, below.length, min (min (min mark (below.length + 2)) (below.length + 1))
    below.length, rfl⟩, ⟨rfl, rfl, ?_⟩, fun call frame => ?_⟩
  · simp only
    omega
  · rw [choose]
    change (match if (x != 0) = true then whenTrue else whenFalse with
      | .quotation body => call frame body
      | value => push value : Eval Unit) _ =
        branch call frame (if (x != 0) = true then whenTrue else whenFalse) _
    generalize (if (x != 0) = true then whenTrue else whenFalse) = taken
    cases taken <;> rfl

end Eval

/-- While the logical words keep their meanings and three levels of nesting are left, they agree
with `if` on which numbers are true, with two reservations: an operand that is not a number is true
for `if` and as good as zero for them, and `and` is false where the product of its operands is so
small that it is zero. -/
theorem logicWords_leave {s : Session} (hd : s.dictionary.Keeps logicWords) (hroom : 3 ≤ s.room)
    (a b : Float) (below : List Value) :
    (∀ whenTrue whenFalse, s.stack.values = [whenFalse, whenTrue, .number a] ++ below →
      ∃ left : Stack, s.stack.Rewritten left [whenFalse, whenTrue, .number a] [] below ∧
        ∀ call frame, choose call frame s =
          branch call frame (if (Value.number a).isTrue then whenTrue else whenFalse)
            { s with stack := left }) ∧
    (s.stack.values = [.number a] ++ below →
      s.Leaves "not" [.number a] [.number (flag (!(Value.number a).isTrue || a.isNaN))] below) ∧
    (s.stack.values = [.number b, .number a] ++ below →
      s.Leaves "and" [.number b, .number a]
        [.number (flag ((Value.number a).isTrue && (Value.number b).isTrue &&
          !a.isNaN && !b.isNaN && a * b != 0))] below ∧
      s.Leaves "or" [.number b, .number a]
        [.number (flag (((Value.number a).isTrue || (Value.number b).isTrue) &&
          !a.isNaN && !b.isNaN))] below) := by
  refine ⟨fun _ _ => exists_choose, fun hs => ?_, fun hs => ⟨?_, ?_⟩⟩
  · have hnot := Dictionary.rewrites_not hd a
    rw [← Option.not_isSome, isSome_side?, Bool.not_and, Bool.not_not] at hnot
    exact hnot.leaves (by omega) hs
  · have hand := Dictionary.rewrites_and hd a b
    rw [isSome_side?_product] at hand
    exact hand.leaves hroom hs
  · have hor := Dictionary.rewrites_or hd a b
    rw [magnitudes_pos] at hor
    exact hor.leaves hroom hs

/-- Zero and one lie on the stack of a session that has just started. -/
theorem logicWords_leave_zero_one : ∃ s : Session, s.stack.values = [.number 1, .number 0] ∧
    s.dictionary.Keeps logicWords ∧ 3 ≤ s.room ∧
      s.Leaves "and" [.number 1, .number 0] [.number 0] [] ∧
        s.Leaves "or" [.number 1, .number 0] [.number 1] [] := by
  obtain ⟨d, hd⟩ := Session.exists_start
  have hkeeps := Dictionary.keeps_of_start rfl (hd {} [] {}) logicWords
  let s : Session := ⟨{}, d, (Stack.empty.pushed (.number 0)).pushed (.number 1), [], 0, [], {}⟩
  have hroom : 3 ≤ s.room := (by decide : 3 ≤ 1000 - 0)
  exact ⟨s, rfl, hkeeps, hroom, (logicWords_leave (s := s) hkeeps hroom 0 1 []).2.2 rfl⟩

theorem Dictionary.Rewrites.square {d : Dictionary} {levels : Nat} {rest : List Token.Kind}
    {x : Float} {before after : List Value} (h : d.Keeps logicWords)
    (hr : d.Rewrites levels rest (.number (x * x) :: before) after) :
    d.Rewrites levels (.word "dup" :: .word "mul" :: rest) (.number x :: before) after :=
  .primitive (h.lookup?_primitive .copy (by decide)) rfl
    (.primitive (h.lookup?_primitive .multiply (by decide)) rfl hr)

/-- The tokens of a text that leaves a very small number, twice. -/
def tinyKinds : List Token.Kind :=
  [.number 1e-20, .word "dup", .word "mul", .word "dup", .word "mul", .word "dup", .word "mul",
    .word "dup", .word "mul", .word "dup"]

/-- The number is true, and its product with itself is not. -/
theorem and_of_underflow : ∃ (s t u : Session) (x : Float),
    Session.start {} [] {} = .ok s ∧ (Value.number x).isTrue = true ∧
      load "0.00000000000000000001 dup mul dup mul dup mul dup mul dup" s = .ok () t ∧
        t.stack.values = [.number x, .number x] ∧
          load "and" t = .ok () u ∧ u.stack.values = [.number 0] := by
  obtain ⟨d, hd⟩ := Session.exists_start
  have hstart := hd {} [] {}
  have hkeeps : d.Keeps logicWords := Dictionary.keeps_of_start rfl hstart logicWords
  -- the numbers stay unevaluated until the end, where the kernel multiplies them
  have htiny : d.Rewrites 3 tinyKinds [] [_, _] :=
    .number 1e-20 <| .square hkeeps <| .square hkeeps <| .square hkeeps <| .square hkeeps <|
      .primitive (hkeeps.lookup?_primitive .copy (by decide)) rfl .nil
  let s : Session := ⟨{}, d, .empty, [], 0, [], {}⟩
  have hlimit : 3 ≤ s.settings.maxDepth := (by decide : 3 ≤ 1000)
  have hreads : (tokenize "0.00000000000000000001 dup mul dup mul dup mul dup mul dup").toOption.map
      (·.map (·.kind)) = some tinyKinds := by
    decide +kernel
  obtain ⟨left, hleft, hload⟩ := htiny.load (s := s) hreads hlimit rfl
  let t : Session := { s with stack := left }
  have hread : (tokenize "and").toOption.map (·.map (·.kind)) = some [.word "and"] := by
    decide +kernel
  obtain ⟨left', hleft', hload'⟩ :=
    (Dictionary.rewrites_and hkeeps _ _).load (s := t) hread hlimit hleft.after
  exact ⟨s, t, _, _, hstart, by decide +kernel, hload, hleft.after, hload',
    hleft'.after.trans (by decide +kernel)⟩

end StackCalc
