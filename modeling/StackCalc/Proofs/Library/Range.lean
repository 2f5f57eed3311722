import StackCalc.Proofs.Decimal.Whole
import StackCalc.Proofs.Extraction
import StackCalc.Proofs.Library.Brackets

/-!
Intervals of whole numbers as sequences. `range` counts up from its lower bound, as often as the
bounds are apart: the bounds and their difference may be as great as a double can count by ones.
-/
namespace StackCalc

open Arithmetic Binary64 Eval
open Float.Model (UnpackedFloat)

namespace Prelude

/-- The words that make intervals, and the words that these come down to. -/
def rangeWords : List String :=
  ["range", "seq", "++", "arg", "swap", "over", "sub", "dup", "add", "max", "repeat"]

/-- The number `x`, which is `lo`, and as many whole numbers behind it. -/
def interval (x : Float) (lo : Int) (count : Nat) : List Float :=
  x :: (List.range count).map fun i => Float.ofInt (lo + (i + 1 : Nat))

end Prelude

open Prelude

section Counting
variable {x : Float} {lo : Int}

theorem interval_succ (x : Float) (lo : Int) (count : Nat) :
    interval x lo (count + 1) = interval x lo count ++ [Float.ofInt (lo + (count + 1 : Nat))] := by
  rw [interval, List.range_succ, List.map_append]
  rfl

theorem forall₂_isWhole_interval {count : Nat} (hx : IsWhole x lo) (hlo : lo.natAbs ≤ 2 ^ 53)
    (hhi : (lo + count).natAbs ≤ 2 ^ 53) :
    List.Forall₂ IsWhole (interval x lo count)
      ((List.range (count + 1)).map fun i : Nat => lo + i) := by
  induction count with
  | zero => exact .cons (by simpa using hx) .nil
  | succ count ih =>
    rw [interval_succ, List.range_succ, List.map_append]
    refine List.rel_append (ih (by omega)) (.cons ?_ .nil)
    exact isWhole_ofInt (by omega)

/-- The last number of an interval is the one that is counted up to. -/
theorem exists_last_interval {count : Nat} (hx : IsWhole x lo)
    (hhi : (lo + count).natAbs ≤ 2 ^ 53) :
    ∃ z below, (interval x lo count).reverse = z :: below ∧ IsWhole z (lo + count) := by
  cases count with
  | zero => exact ⟨x, [], rfl, (add_zero lo).symm ▸ hx⟩
  | succ count =>
    rw [interval_succ, List.reverse_append]
    exact ⟨_, _, rfl, isWhole_ofInt hhi⟩

theorem lt_zero_iff : x < 0 ↔ side? x = some .negative := by
  rw [lt_iff, unpack_literal_zero, side?]
  cases x.toModel.unpack with
  | notANumber | zero => constructor <;> rintro ⟨⟩
  | infinity sign | finite sign =>
    cases sign with
    | positive => constructor <;> rintro ⟨⟩
    | negative => exact ⟨fun _ => rfl, fun _ => rfl⟩

/-- How often something is to be repeated that is repeated until a whole number is reached, and not
at all for numbers below zero. -/
theorem count?_larger {n : Int} (hx : IsWhole x n) (hn : n < 2 ^ 64) :
    count? (larger x 0) = some n.toNat := by
  have hnumber : x.isNaN = false := by
    rcases hx.cases with ⟨-, sign, hu⟩ | ⟨sign, m, e, hc, hu, -⟩ <;>
      exact congrArg UnpackedFloat.isNaN hu
  rw [larger, if_neg (Bool.eq_false_iff.1 hnumber), if_neg (by decide)]
  refine count?_of_denotes ?_ (by omega)
  rcases hx.cases with ⟨rfl, sign, hu⟩ | ⟨sign, m, e, hc, hu, -, hvalue⟩
  · have hside : ¬ x < 0 := by
      rw [lt_zero_iff, side?_of_zero hu]
      rintro ⟨⟩
    rw [if_neg hside, Denotes, hu]
    rfl
  have hmagnitude : (0 : ℚ) < m * 2 ^ e :=
    mul_pos (by exact_mod_cast hc.pos) (zpow_pos two_pos e)
  have hside : side? x = some sign := by rw [side?, hu]
  cases sign with
  | negative =>
    have hneg : n ≤ 0 := by
      have hcast : (n : ℚ) ≤ 0 := by
        rw [← hvalue, signed]
        linarith
      exact_mod_cast hcast
    rw [if_pos (lt_zero_iff.2 hside), Denotes, unpack_literal_zero, Int.toNat_of_nonpos hneg]
  | positive =>
    have hpos : (0 : ℚ) ≤ n := hvalue ▸ hmagnitude.le
    have hnonneg : 0 ≤ n := by exact_mod_cast hpos
    have hcast : ((n.toNat : Int) : ℚ) = n := by rw [Int.toNat_of_nonneg hnonneg]
    have hnonnegative : ¬ x < 0 := by
      rw [lt_zero_iff, hside]
      rintro ⟨⟩
    rw [if_neg hnonnegative, Denotes, hu]
    refine ⟨rfl, ?_⟩
    exact hvalue.trans hcast.symm

end Counting

namespace Dictionary

section Words
variable {d : Dictionary} (h : d.Keeps rangeWords) {x y : Float} {lo hi : Int}
include h

theorem rewrites_increment (z : Float) :
    d.Rewrites 1 [.word "dup", .word "++"] [.number z] [.number (z + 1), .number z] := by
  have hword : d.Rewrites 1 [.word "++"] [.number z] [.number (z + 1)] := by
    refine .library h (by decide) rfl ?_
    refine .number 1 ?_
    exact .primitive (h.lookup?_primitive .add (by decide)) rfl .nil
  refine .primitive (h.lookup?_primitive .copy (by decide)) rfl ?_
  exact .word hword .nil

/-- The body that `range` repeats puts the next number on top. -/
theorem rewrites_next {count : Nat} (hx : IsWhole x lo)
    (hlo : lo.natAbs ≤ 2 ^ 53) (hhi : (lo + (count + 1 : Nat)).natAbs ≤ 2 ^ 53) :
    d.Rewrites 1 [.word "dup", .word "++"]
      ((interval x lo count).reverse.map .number)
      ((interval x lo (count + 1)).reverse.map .number) := by
  have hbound : (lo + count).natAbs ≤ 2 ^ 53 := by omega
  obtain ⟨z, below, hlast, hz⟩ := exists_last_interval hx hbound
  have hnext : z + 1 = Float.ofInt (lo + (count + 1 : Nat)) := by
    have hone := hz.add_one (by omega)
    rwa [add_assoc] at hone
  have hword := (rewrites_increment h z).framed (below.map .number)
  rw [hnext] at hword
  rw [interval_succ, List.reverse_append, hlast]
  exact hword

/-- What `range` does in its scope: the bounds give the number of steps. -/
theorem rewrites_count (hx : IsWhole x lo) (hy : IsWhole y hi) (hlo : lo.natAbs ≤ 2 ^ 53)
    (hhi : hi.natAbs ≤ 2 ^ 53) (hapart : (hi - lo).natAbs ≤ 2 ^ 53) :
    d.Rewrites 2
      [.word "swap", .word "over", .word "sub", .opener .brace, .word "dup", .word "++",
        .closer .brace, .word "swap", .number 0, .word "max", .word "repeat"]
      [.number x, .number y]
      ((interval x lo (hi - lo).toNat).reverse.map .number) := by
  have hcount := count?_larger (hy.sub hx hapart) (by omega)
  refine .primitive (h.lookup?_primitive .swap (by decide)) rfl ?_
  refine .primitive (h.lookup?_primitive .copySecond (by decide)) rfl ?_
  refine .primitive (h.lookup?_primitive .subtract (by decide)) rfl ?_
  refine .quotation [.word "dup", .word "++"] (.plain rfl (.plain rfl .nil))
    fun body hbody => ?_
  refine .primitive (h.lookup?_primitive .swap (by decide)) rfl ?_
  refine .number 0 ?_
  refine .primitive (h.lookup?_primitive .larger (by decide)) rfl ?_
  refine rewrites_iterate (fun i => (interval x lo i).reverse.map .number)
    (h.lookup?_primitive .iterate (by decide)) hcount fun i hi => ?_
  rw [hbody]
  exact rewrites_next h hx hlo (by omega)

theorem rewrites_range (hx : IsWhole x lo) (hy : IsWhole y hi) (hlo : lo.natAbs ≤ 2 ^ 53)
    (hhi : hi.natAbs ≤ 2 ^ 53) (hapart : (hi - lo).natAbs ≤ 2 ^ 53) :
    d.Rewrites 3 [.word "range"] [.number y, .number x]
      [.sequence ((interval x lo (hi - lo).toNat).map .number)] := by
  have hscope := Rewrites.scope [.number y, .number x]
    (h.lookup?_primitive .draw (by decide)) (Token.checkNesting_eq_ok_iff.1 rfl)
    (rewrites_count h hx hy hlo hhi hapart)
  rw [← List.map_reverse, List.reverse_reverse] at hscope
  exact .library h (by decide) rfl hscope

theorem rewrites_seq (hy : IsWhole y hi) (hhi : hi.natAbs ≤ 2 ^ 53)
    (hapart : (hi - 1).natAbs ≤ 2 ^ 53) :
    d.Rewrites 4 [.word "seq"] [.number y]
      [.sequence ((interval 1 1 (hi - 1).toNat).map .number)] := by
  refine .library h (by decide) rfl ?_
  refine .number 1 ?_
  refine .primitive (h.lookup?_primitive .swap (by decide)) rfl ?_
  exact rewrites_range h (isWhole_ofNat (n := 1) (by decide)) hy (by decide) hhi hapart

end Words

end Dictionary

/-- While the words that make intervals keep their meanings and four levels of nesting are left,
`range` leaves the whole numbers from the lower bound to the upper one, or the lower bound alone if
the upper one is less, and `seq` leaves those from one. -/
theorem rangeWords_leave {s : Session} (hd : s.dictionary.Keeps rangeWords) (hroom : 4 ≤ s.room)
    {y : Float} {hi : Int} (hy : IsWhole y hi) (hhi : hi.natAbs ≤ 2 ^ 53) (below : List Value) :
    (∀ (x : Float) (lo : Int), IsWhole x lo → lo.natAbs ≤ 2 ^ 53 → (hi - lo).natAbs ≤ 2 ^ 53 →
      s.stack.values = [.number y, .number x] ++ below →
      let numbers := interval x lo (hi - lo).toNat
      List.Forall₂ IsWhole numbers
          ((List.range ((hi - lo).toNat + 1)).map fun i : Nat => lo + i) ∧
        s.Leaves "range" [.number y, .number x] [.sequence (numbers.map .number)] below) ∧
    ((hi - 1).natAbs ≤ 2 ^ 53 → s.stack.values = [.number y] ++ below →
      s.Leaves "seq" [.number y] [.sequence ((interval 1 1 (hi - 1).toNat).map .number)]
        below) := by
  constructor
  · intro x lo hx hlo hapart hs
    refine ⟨forall₂_isWhole_interval hx hlo (by omega), ?_⟩
    exact (Dictionary.rewrites_range hd hx hy hlo hhi hapart).leaves (by omega) hs
  · intro hapart hs
    exact (Dictionary.rewrites_seq hd hy hhi hapart).leaves hroom hs

/-- From minus one to two, and from one to two. -/
theorem rangeWords_leave_two : ∃ s : Session, s.dictionary.Keeps rangeWords ∧ 4 ≤ s.room ∧
    s.stack.values = [.number 2, .number (-1), .reference "a"] ∧
    IsWhole 2 2 ∧ IsWhole (-1) (-1) ∧
    s.Leaves "range" [.number 2, .number (-1)]
      [.sequence [.number (-1), .number 0, .number 1, .number 2]] [.reference "a"] ∧
    s.Leaves "seq" [.number 2] [.sequence [.number 1, .number 2]]
      [.number (-1), .reference "a"] := by
  obtain ⟨d, hd⟩ := Session.exists_start
  have hkeeps := Dictionary.keeps_of_start rfl (hd {} [] {}) rangeWords
  have hroom : 4 ≤ 1000 - 0 := by decide
  have htwo : IsWhole 2 2 := isWhole_ofNat (n := 2) (by decide)
  have hminus : IsWhole (-1) (-1) := (isWhole_ofNat (n := 1) (by decide)).neg
  let s : Session :=
    { dictionary := d, stack := .ofBottom [.reference "a", .number (-1), .number 2] }
  have hrange := ((rangeWords_leave (s := s) hkeeps hroom htwo (by decide) [.reference "a"]).1
    (-1) (-1) hminus (by decide) (by decide) rfl).2
  have hseq := (rangeWords_leave (s := s) hkeeps hroom htwo (by decide)
    [.number (-1), .reference "a"]).2 (by decide) rfl
  have hfour : interval (-1) (-1) (2 - -1 : Int).toNat = [-1, 0, 1, 2] := by decide +kernel
  have hpair : interval 1 1 (2 - 1 : Int).toNat = [1, 2] := by decide +kernel
  rw [hfour] at hrange
  rw [hpair] at hseq
  exact ⟨s, hkeeps, hroom, rfl, htwo, hminus, hrange, hseq⟩

end StackCalc
