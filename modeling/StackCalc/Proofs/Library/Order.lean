import StackCalc.Proofs.Library.Logic

/-!
The words of the library that compare two numbers. Of any two numbers the first is smaller, or the
second, or neither; what is not a number is neither smaller nor larger than anything. The words tell
the three cases apart, and each of the other three words denies one of them.
-/
namespace StackCalc

open Arithmetic Binary64
open Float.Model (UnpackedFloat)

namespace Prelude

/-- The words that compare two numbers, and the words that these come down to. -/
def orderWords : List String :=
  ["lt", "ne", "ge", "le"] ++ logicWords

theorem one_sub_flag (p : Bool) : 1 - flag p = flag (!p) := by
  cases p <;> rfl

end Prelude

open Prelude

/-- The other way round, what is larger is smaller, and what is not ordered is not ordered. -/
theorem compare_swap (f g : UnpackedFloat) : g.compare f = (f.compare g).map Ordering.swap := by
  have hsigns (sign sign' : UnpackedFloat.Sign) :
      compare sign' sign = (compare sign sign').swap := by
    cases sign <;> cases sign' <;> rfl
  have hmagnitudes (m m' : Nat) (e e' : Int) : (compare e' e).then (compare m' m) =
      ((compare e e').then (compare m m')).swap := by
    rw [Ordering.swap_then, Int.compare_swap, Nat.compare_swap]
  cases f with
  | notANumber => cases g <;> rfl
  | zero sign =>
    cases g with
    | notANumber | zero => rfl
    | infinity sign' | finite sign' => cases sign' <;> rfl
  | infinity sign =>
    cases g with
    | notANumber => rfl
    | infinity sign' => exact congrArg some (hsigns sign sign')
    | zero | finite => cases sign <;> rfl
  | finite sign m e =>
    cases g with
    | notANumber => rfl
    | zero => cases sign <;> rfl
    | infinity sign' => cases sign <;> cases sign' <;> rfl
    | finite sign' m' e' =>
      cases sign <;> cases sign'
      case positive.negative | negative.positive => rfl
      case positive.positive => exact congrArg some (hmagnitudes m m' e e')
      case negative.negative =>
        exact congrArg (fun o => some (Ordering.swap o)) (hmagnitudes m m' e e')

theorem not_lt_of_lt {x y : Float} (h : x < y) : ¬ y < x := by
  rw [lt_iff, UnpackedFloat.lt, beq_iff_eq] at h ⊢
  rw [compare_swap, h]
  exact nofun

section Comparison
variable (x y : Float)

theorem comparison_cases :
    (comparison x y = -1 ∧ decide (x < y) = true ∧ decide (y < x) = false) ∨
    (comparison x y = 0 ∧ decide (x < y) = false ∧ decide (y < x) = false) ∨
    (comparison x y = 1 ∧ decide (x < y) = false ∧ decide (y < x) = true) := by
  rw [comparison]
  by_cases hxy : x < y
  · exact .inl ⟨if_pos hxy, decide_eq_true hxy, decide_eq_false (not_lt_of_lt hxy)⟩
  rw [if_neg hxy]
  by_cases hyx : y < x
  · exact .inr (.inr ⟨if_pos hyx, decide_eq_false hxy, decide_eq_true hyx⟩)
  · exact .inr (.inl ⟨if_neg hyx, decide_eq_false hxy, decide_eq_false hyx⟩)

/-- The outcome of the comparison, and whether the first number is smaller, neither, or larger. -/
theorem comparison_mem :
    (comparison x y, flag (x < y), flag (!(x < y) && !(y < x)), flag (y < x)) ∈
      [((-1 : Float), (1 : Float), (0 : Float), (0 : Float)), (0, 0, 1, 0), (1, 0, 0, 1)] := by
  rcases comparison_cases x y with ⟨h, hxy, hyx⟩ | ⟨h, hxy, hyx⟩ | ⟨h, hxy, hyx⟩ <;>
    rw [h, hxy, hyx] <;> simp [flag]

theorem larger_comparison : larger (comparison x y) 0 = flag (y < x) := by
  rcases comparison_cases x y with ⟨h, -, hyx⟩ | ⟨h, -, hyx⟩ | ⟨h, -, hyx⟩ <;>
    rw [h, hyx] <;> rfl

theorem one_sub_comparison_mul_self :
    1 - comparison x y * comparison x y = flag (!(x < y) && !(y < x)) := by
  rcases comparison_cases x y with ⟨h, hxy, hyx⟩ | ⟨h, hxy, hyx⟩ | ⟨h, hxy, hyx⟩ <;>
    rw [h, hxy, hyx] <;> rfl

end Comparison

namespace Dictionary

section Words
variable {d : Dictionary} (h : d.Keeps orderWords) (x y : Float)
include h

theorem rewrites_not_flag (p : Bool) :
    d.Rewrites 2 [.word "not"] [.number (flag p)] [.number (flag (!p))] :=
  isNone_side?_flag p ▸ rewrites_not (h.mono (by decide)) (flag p)

theorem rewrites_eq_flag : d.Rewrites 1 [.word "eq"] [.number y, .number x]
    [.number (flag (!(x < y) && !(y < x)))] :=
  one_sub_comparison_mul_self x y ▸ rewrites_eq (h.mono (by decide)) x y

theorem rewrites_gt_flag :
    d.Rewrites 1 [.word "gt"] [.number y, .number x] [.number (flag (y < x))] :=
  larger_comparison x y ▸ rewrites_gt (h.mono (by decide)) x y

theorem rewrites_lt_flag :
    d.Rewrites 2 [.word "lt"] [.number y, .number x] [.number (flag (x < y))] := by
  refine .library h (by decide) rfl ?_
  refine .primitive (h.lookup?_primitive .swap (by decide)) rfl ?_
  exact .word (rewrites_gt_flag h y x) .nil

theorem rewrites_ne_flag : d.Rewrites 3 [.word "ne"] [.number y, .number x]
    [.number (flag (!(!(x < y) && !(y < x))))] := by
  refine .library h (by decide) rfl ?_
  refine .word ((rewrites_eq_flag h x y).mono (Nat.le_succ 1)) ?_
  exact .word (rewrites_not_flag h _) .nil

theorem rewrites_ge_flag :
    d.Rewrites 3 [.word "ge"] [.number y, .number x] [.number (flag (!(x < y)))] := by
  refine .library h (by decide) rfl ?_
  refine .word (rewrites_lt_flag h x y) ?_
  exact .word (rewrites_not_flag h _) .nil

theorem rewrites_le_flag :
    d.Rewrites 3 [.word "le"] [.number y, .number x] [.number (flag (!(y < x)))] := by
  refine .library h (by decide) rfl ?_
  refine .word ((rewrites_gt_flag h x y).mono (Nat.le_succ 1)) ?_
  exact .word (rewrites_not_flag h _) .nil

theorem rewrites_cmp : d.Rewrites 0 [.word "cmp"] [.number y, .number x]
    [.number (comparison x y)] :=
  .primitive (h.lookup?_primitive .compare (by decide)) rfl .nil

end Words

end Dictionary

/-- While the words that compare keep their meanings and three levels of nesting are left, one of
`lt`, `eq` and `gt` leaves one and the others zero, as the outcome of `cmp` is minus one, zero or
one. The other three words leave what is missing to one. On the numbers in the other order, as they
are in the session `t`, the words that look the other way leave the same. -/
theorem orderWords_leave {s t : Session} (hs : s.dictionary.Keeps orderWords)
    (ht : t.dictionary.Keeps orderWords) (hroom : 3 ≤ s.room) (hroom' : 3 ≤ t.room) (a b : Float)
    (below below' : List Value) (hstack : s.stack.values = [.number b, .number a] ++ below)
    (hstack' : t.stack.values = [.number a, .number b] ++ below') :
    ∃ lt eq gt : Float,
      (comparison a b, lt, eq, gt) ∈
        [((-1 : Float), (1 : Float), (0 : Float), (0 : Float)), (0, 0, 1, 0), (1, 0, 0, 1)] ∧
      (let leaves name result :=
        s.Leaves name [.number b, .number a] [.number result] below
      leaves "cmp" (comparison a b) ∧ leaves "lt" lt ∧ leaves "eq" eq ∧ leaves "gt" gt ∧
        leaves "ge" (1 - lt) ∧ leaves "ne" (1 - eq) ∧ leaves "le" (1 - gt)) ∧
      let leaves name result :=
        t.Leaves name [.number a, .number b] [.number result] below'
      leaves "gt" lt ∧ leaves "lt" gt ∧ leaves "le" (1 - lt) ∧ leaves "ge" (1 - gt) := by
  refine ⟨_, _, _, comparison_mem a b, ⟨?_, ?_, ?_, ?_, ?_, ?_, ?_⟩, ?_, ?_, ?_, ?_⟩
  · exact (Dictionary.rewrites_cmp hs a b).leaves (Nat.zero_le _) hstack
  · exact (Dictionary.rewrites_lt_flag hs a b).leaves (by omega) hstack
  · exact (Dictionary.rewrites_eq_flag hs a b).leaves (by omega) hstack
  · exact (Dictionary.rewrites_gt_flag hs a b).leaves (by omega) hstack
  · exact one_sub_flag _ ▸ (Dictionary.rewrites_ge_flag hs a b).leaves hroom hstack
  · exact one_sub_flag _ ▸ (Dictionary.rewrites_ne_flag hs a b).leaves hroom hstack
  · exact one_sub_flag _ ▸ (Dictionary.rewrites_le_flag hs a b).leaves hroom hstack
  · exact (Dictionary.rewrites_gt_flag ht b a).leaves (by omega) hstack'
  · exact (Dictionary.rewrites_lt_flag ht b a).leaves (by omega) hstack'
  · exact one_sub_flag _ ▸ (Dictionary.rewrites_le_flag ht b a).leaves hroom' hstack'
  · exact one_sub_flag _ ▸ (Dictionary.rewrites_ge_flag ht b a).leaves hroom' hstack'

/-- A number and something that is none: they count as equal. -/
theorem orderWords_leave_unordered : ∃ s t : Session,
    s.dictionary.Keeps orderWords ∧ t.dictionary.Keeps orderWords ∧ 3 ≤ s.room ∧ 3 ≤ t.room ∧
    s.stack.values = [.number (0 / 0), .number 1] ∧
    t.stack.values = [.number 1, .number (0 / 0)] ∧
    s.Leaves "eq" [.number (0 / 0), .number 1] [.number 1] [] ∧
    s.Leaves "ge" [.number (0 / 0), .number 1] [.number (1 - 0)] [] ∧
    t.Leaves "lt" [.number 1, .number (0 / 0)] [.number 0] [] := by
  obtain ⟨d, hd⟩ := Session.exists_start
  have hkeeps := Dictionary.keeps_of_start rfl (hd {} [] {}) orderWords
  have hroom : 3 ≤ 1000 - 0 := by decide
  let s : Session := { dictionary := d, stack := .ofBottom [.number 1, .number (0 / 0)] }
  let t : Session := { dictionary := d, stack := .ofBottom [.number (0 / 0), .number 1] }
  obtain ⟨lt, eq, gt, hmem, ⟨-, -, heq, -, hge, -, -⟩, -, hlt, -, -⟩ :=
    orderWords_leave (s := s) (t := t) hkeeps hkeeps hroom hroom 1 (0 / 0) [] [] rfl rfl
  have hcomparison : comparison 1 (0 / 0) = 0 := by decide +kernel
  have hne : (0 : Float) ≠ -1 ∧ (0 : Float) ≠ 1 := by decide +kernel
  rw [hcomparison] at hmem
  simp only [List.mem_cons, Prod.mk.injEq, hne.1, hne.2, false_and, false_or, or_false, true_and,
    List.not_mem_nil] at hmem
  obtain ⟨rfl, rfl, rfl⟩ := hmem
  exact ⟨s, t, hkeeps, hkeeps, hroom, hroom, rfl, rfl, heq, hge, hlt⟩

end StackCalc
