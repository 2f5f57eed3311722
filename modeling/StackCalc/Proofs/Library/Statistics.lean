import StackCalc.Proofs.Decimal.Whole
import StackCalc.Proofs.Library.Brackets
import StackCalc.Proofs.Sum

/-!
Mean, variance and standard deviation. On numbers the words compute their formulas, with additions
from the left; where there are no numbers, or something else is among them, the mean fails, and with
it everything that needs a mean.
-/
namespace StackCalc

open Binary64 Eval

namespace Prelude

/-- The statistical words, and the words that these come down to. -/
def statisticsWords : List String :=
  ["avg", "var", "stddev", "sq", "sqrt", "add", "sub", "mul", "div", "pow", "dup", "swap", "pop",
    "over", "len", "fold1", "map"]

/-- The mean of the number `x` and of others. -/
def mean (x : Float) (numbers : List Float) : Float :=
  numbers.foldl (· + ·) x / Float.ofNat (numbers.length + 1)

def squared (x : Float) : Float :=
  x * x

/-- The mean of the squared distances from the mean. -/
def variance (x : Float) (numbers : List Float) : Float :=
  let center := mean x numbers
  mean (squared (x - center)) (numbers.map fun y => squared (y - center))

def standardDeviation (x : Float) (numbers : List Float) : Float :=
  (variance x numbers).pow 0.5

end Prelude

open Prelude

namespace Dictionary

section Numbers
variable {d : Dictionary} (h : d.Keeps statisticsWords)
include h

theorem rewrites_length (items : List Value) : d.Rewrites 0 [.word "len"] [.sequence items]
    [.number (Float.ofNat items.length)] := by
  refine .of_execute (fun s below hd hroom hs => ?_) .nil
  subst hd
  have hdropped := Stack.Rewritten.dropped hs
  have hpop : Stack.popSequence s.stack = .ok items (s.stack.dropped 1) :=
    Stack.popSequence_eq_ok.2 (Stack.pop_eq_ok.2 ⟨below, hs, rfl⟩)
  have hlength : length s = .ok () { s with
      stack := (s.stack.dropped 1).pushed (.number (Float.ofNat items.length)) } :=
    bind_of_ok (onStack_eq_ok.2 ⟨_, hpop, rfl⟩)
  exact ⟨_, hdropped.trans (.pushed hdropped.after _),
    execute_primitive_ok (h.lookup?_primitive .length (by decide)) (only_eq_ok.2 ⟨hlength, rfl⟩)⟩

/-- `fold1` starts from the first number. -/
theorem rewrites_fold1_add {body : List Token} (hb : body.map (·.kind) = [.word "add"]) (x : Float)
    (numbers : List Float) : d.Rewrites 1 [.word "fold1"]
      [.quotation body, .sequence ((x :: numbers).map .number)]
      [.number (numbers.foldl (· + ·) x)] := by
  refine .of_execute (fun s below hd hroom hs => ?_) .nil
  subst hd
  obtain ⟨⟨_, p⟩, tail, rfl, rfl, htail⟩ := List.map_eq_cons_iff.1 hb
  obtain rfl := List.map_eq_nil_iff.1 htail
  have hdropped := Stack.Rewritten.dropped hs
  have hinvoke := invoke_fold_numbers (t := s.dropped 2)
    (h.lookup?_primitive .add (by decide)) (Nat.lt_of_sub_pos hroom) p (.fold1 hs)
  exact ⟨_, hdropped.trans (.pushed hdropped.after _),
    execute_primitive_ok (h.lookup?_primitive .fold1 (by decide)) hinvoke⟩

theorem rewrites_avg (x : Float) (numbers : List Float) :
    d.Rewrites 2 [.word "avg"] [.sequence ((x :: numbers).map .number)]
      [.number (mean x numbers)] := by
  have hdivide : (Primitive.divide).effect?
      [.number (Float.ofNat ((x :: numbers).map Value.number).length),
        .number (numbers.foldl (· + ·) x)] = some [.number (mean x numbers)] := by
    rw [List.length_map, List.length_cons, Primitive.effect?,
      if_neg (Bool.eq_false_iff.1 (ofNat_beq_zero (Nat.succ_pos _)))]
    rfl
  refine .library h (by decide) rfl ?_
  refine .primitive (h.lookup?_primitive .copy (by decide)) rfl ?_
  refine .quotation [.word "add"] (.plain rfl .nil) fun body hb => ?_
  refine .word (rewrites_fold1_add h hb x numbers) ?_
  refine .primitive (h.lookup?_primitive .swap (by decide)) rfl ?_
  refine .word ((rewrites_length h _).mono (Nat.zero_le 1)) ?_
  exact .primitive (h.lookup?_primitive .divide (by decide)) hdivide .nil

theorem rewrites_sq (x : Float) :
    d.Rewrites 1 [.word "sq"] [.number x] [.number (squared x)] := by
  refine .library h (by decide) rfl ?_
  refine .primitive (h.lookup?_primitive .copy (by decide)) rfl ?_
  exact .primitive (h.lookup?_primitive .multiply (by decide)) rfl .nil

theorem rewrites_sub_sq (center y : Float) :
    d.Rewrites 1 [.word "sub", .word "sq"] [.number center, .number y]
      [.number (squared (y - center))] := by
  refine .primitive (h.lookup?_primitive .subtract (by decide)) rfl ?_
  exact .word (rewrites_sq h (y - center)) .nil

end Numbers

end Dictionary

/-- The body that `var` maps reads the mean below its operand, and leaves it there. -/
theorem exists_squared_distance {s : Session} (h : s.dictionary.Keeps statisticsWords)
    (hroom : 1 ≤ s.room) {center y : Float} {below : List Value}
    (hs : s.stack.values = .number y :: .number center :: below) {body : List Token}
    (hb : body.map (·.kind) = [.word "over", .word "sub", .word "sq"]) :
    ∃ left : Stack, s.stack.Rewritten left [.number y] [.number (squared (y - center))]
        (.number center :: below) ∧ evaluate body s = .ok () { s with stack := left } := by
  obtain ⟨⟨_, p⟩, tail, rfl, rfl, htail⟩ := List.map_eq_cons_iff.1 hb
  have hlen : 1 < s.stack.values.length := by
    rw [hs]
    exact Nat.succ_lt_succ (Nat.succ_pos _)
  have hcopy := Stack.copyFromTop_of_lt hlen
  simp only [hs, List.getElem_cons_succ, List.getElem_cons_zero] at hcopy
  have hx : execute (callWithin s.room) "over" s = .ok () (s.pushed (.number center)) :=
    execute_primitive_ok (h.lookup?_primitive .copySecond (by decide))
      (only_eq_ok.2 ⟨onStack_eq_ok.2 ⟨_, hcopy, rfl⟩, rfl⟩)
  -- a copy of the mean comes on top, and nothing is moved
  have hpush : s.stack.Rewritten (s.stack.pushed (.number center)) [.number y]
      [.number center, .number y] (.number center :: below) := .pushed hs _
  obtain ⟨left, hleft, hrun⟩ := Dictionary.rewrites_sub_sq h center y
    (s.pushed (.number center)) tail (.number center :: below) rfl hroom htail hpush.after
  refine ⟨left, hpush.trans hleft, ?_⟩
  rw [evaluate, run_word]
  exact (bind_of_ok hx).trans hrun

namespace Dictionary

section Spread
variable {d : Dictionary} (h : d.Keeps statisticsWords) (x : Float) (numbers : List Float)
include h

theorem rewrites_var : d.Rewrites 3 [.word "var"] [.sequence ((x :: numbers).map .number)]
    [.number (variance x numbers)] := by
  refine .library h (by decide) rfl ?_
  refine .primitive (h.lookup?_primitive .copy (by decide)) rfl ?_
  refine .word (rewrites_avg h x numbers) ?_
  refine .primitive (h.lookup?_primitive .swap (by decide)) rfl ?_
  refine .quotation [.word "over", .word "sub", .word "sq"]
    (.plain rfl (.plain rfl (.plain rfl .nil))) fun body hb => ?_
  let F (value : Value) : Value :=
    value.number?.elim value fun y => .number (squared (y - mean x numbers))
  have hmap : d.Rewrites 2 [.word "map"]
      [.quotation body, .sequence ((x :: numbers).map .number), .number (mean x numbers)]
      [.sequence (((x :: numbers).map .number).map F), .number (mean x numbers)] := by
    refine rewrites_map [.number (mean x numbers)]
      (h.lookup?_primitive .map (by decide)) fun t below hd hroom ht item hitem => ?_
    subst hd
    obtain ⟨y, -, rfl⟩ := List.mem_map.1 hitem
    refine .of_rewritten (Nat.lt_of_lt_of_le Nat.two_pos hroom) ?_
    intro u
    have hdeep : 1 ≤ t.settings.maxDepth - (t.depth + 1) := by
      rw [Session.room] at hroom
      omega
    rw [ht]
    exact exists_squared_distance (s := u) h hdeep (congrArg _ ht) hb
  have hdistances : ((x :: numbers).map Value.number).map F =
      (squared (x - mean x numbers) ::
        numbers.map fun y => squared (y - mean x numbers)).map .number := by
    rw [List.map_map, ← List.map_cons (f := fun y => squared (y - mean x numbers)), List.map_map]
    rfl
  rw [hdistances] at hmap
  refine .step hmap ?_
  refine .primitive (h.lookup?_primitive .swap (by decide)) rfl ?_
  refine .primitive (h.lookup?_primitive .drop (by decide)) rfl ?_
  exact .word (rewrites_avg h _ _) .nil

theorem rewrites_stddev : d.Rewrites 4 [.word "stddev"] [.sequence ((x :: numbers).map .number)]
    [.number (standardDeviation x numbers)] := by
  have hsqrt : d.Rewrites 3 [.word "sqrt"] [.number (variance x numbers)]
      [.number (standardDeviation x numbers)] := by
    refine .library h (by decide) rfl ?_
    refine .number 0.5 ?_
    exact .primitive (h.lookup?_primitive .power (by decide)) rfl .nil
  refine .library h (by decide) rfl ?_
  refine .word (rewrites_var h x numbers) ?_
  exact .word hsqrt .nil

end Spread

end Dictionary

/-! Sequences without a mean. -/

namespace Dictionary

section Failures
variable {d : Dictionary} (h : d.Keeps statisticsWords) {body : List Token}
  {first upper other : Value} {items later : List Value} {error : EvalError}
include h

theorem fails_fold1_nil : d.Fails 0 [.word "fold1"] [.quotation body, .sequence []]
    (EvalError.atWord { kind := .emptySequence } "fold1") := by
  refine .of_invoke (h.lookup?_primitive .fold1 (by decide)) fun s below hd hroom hs => ?_
  refine ⟨s.dropped 2, bind_of_error ?_⟩
  rw [fold1, bind_of_ok (popSequenceBody_of_operands hs)]
  rfl

/-- A single item comes through `fold1`, whatever it is. -/
theorem rewrites_fold1_single : d.Rewrites 0 [.word "fold1"]
    [.quotation body, .sequence [first]] [first] := by
  refine .of_execute (fun s below hd hroom hs => ?_) .nil
  subst hd
  have hdropped := Stack.Rewritten.dropped hs
  refine ⟨_, hdropped.trans (.pushed hdropped.after _),
    execute_primitive_ok (h.lookup?_primitive .fold1 (by decide)) ?_⟩
  rw [(Traverses.fold1 hs).invoke]
  rfl

/-- The first two items are added first. -/
theorem fails_fold1_second (hb : body.map (·.kind) = [.word "add"])
    (ho : [upper, first].find? (·.number?.isNone) = some other) :
    d.Fails 1 [.word "fold1"] [.quotation body, .sequence (first :: upper :: later)]
      (EvalError.atWord { kind := .typeMismatch "number" other.typeName, word := some "add",
                          trace := ["fold1"] } "fold1") := by
  obtain ⟨⟨_, p⟩, tail, rfl, rfl, htail⟩ := List.map_eq_cons_iff.1 hb
  obtain rfl := List.map_eq_nil_iff.1 htail
  refine .of_invoke (h.lookup?_primitive .fold1 (by decide)) fun s below hd hroom hs => ?_
  subst hd
  have htraverses : Traverses s .fold1 [⟨.word "add", p⟩] (.reduced first)
      ([] ++ upper :: later) (s.dropped 2) := .fold1 hs
  exact invoke_fold_of_rounds (t := s.dropped 2) (h.lookup?_primitive .add (by decide))
    (Nat.lt_of_sub_pos hroom) p htraverses .done ho

theorem fails_fold1_later (hb : body.map (·.kind) = [.word "add"]) (x : Float)
    (numbers : List Float) (ho : other.number? = none) :
    d.Fails 1 [.word "fold1"]
      [.quotation body, .sequence ((x :: numbers).map .number ++ other :: later)]
      (EvalError.atWord { kind := .typeMismatch "number" other.typeName, word := some "add",
                          trace := ["fold1"] } "fold1") := by
  obtain ⟨⟨_, p⟩, tail, rfl, rfl, htail⟩ := List.map_eq_cons_iff.1 hb
  obtain rfl := List.map_eq_nil_iff.1 htail
  refine .of_invoke (h.lookup?_primitive .fold1 (by decide)) fun s below hd hroom hs => ?_
  subst hd
  exact invoke_fold_other (t := s.dropped 2) (h.lookup?_primitive .add (by decide))
    (Nat.lt_of_sub_pos hroom) p (.fold1 hs) ho

theorem fails_avg_of_fold1 (hf : ∀ body : List Token, body.map (·.kind) = [.word "add"] →
      d.Fails 1 [.word "fold1"] [.quotation body, .sequence items] error) :
    d.Fails 2 [.word "avg"] [.sequence items] (error.inFrame "avg") := by
  refine .library h (by decide) rfl ?_
  refine .primitive (h.lookup?_primitive .copy (by decide)) rfl ?_
  refine .quotation [.word "add"] (.plain rfl .nil) fun body hb => ?_
  exact ((hf body hb).framed [.sequence items]).first _

/-- A single item that is no number is divided by one. -/
theorem fails_avg_single (ho : other.number? = none) :
    d.Fails 2 [.word "avg"] [.sequence [other]]
      ((EvalError.atWord { kind := .typeMismatch "number" other.typeName } "div").inFrame
        "avg") := by
  have hdivide : d.Fails 1 [.word "div"] [.number (Float.ofNat 1), other]
      (EvalError.atWord { kind := .typeMismatch "number" other.typeName } "div") := by
    refine .of_invoke (h.lookup?_primitive .divide (by decide)) fun s below hd hroom hs => ?_
    obtain ⟨settings, dictionary, ⟨values, height, mark, hheight⟩, enclosing, depth, input,
      output⟩ := s
    cases hs
    cases hheight
    cases other with
    | number y => cases ho
    | _ => exact ⟨_, rfl⟩
  refine .library h (by decide) rfl ?_
  refine .primitive (h.lookup?_primitive .copy (by decide)) rfl ?_
  refine .quotation [.word "add"] (.plain rfl .nil) fun body hb => ?_
  refine .step (((rewrites_fold1_single h).mono (Nat.zero_le 1)).framed [.sequence [other]]) ?_
  refine .primitive (h.lookup?_primitive .swap (by decide)) rfl ?_
  refine .step (((rewrites_length h [other]).mono (Nat.zero_le 1)).framed [other]) ?_
  exact hdivide

/-- What is no number among the items makes the mean fail. -/
theorem exists_fails_avg (hi : ∃ item ∈ items, item.number? = none) :
    ∃ other ∈ items, other.number? = none ∧ ∃ error : EvalError,
      error.kind = .typeMismatch "number" other.typeName ∧
        d.Fails 2 [.word "avg"] [.sequence items] error := by
  obtain ⟨item, hitem, hnone⟩ := hi
  rcases numbers_or_first_other items with ⟨numbers, rfl⟩ | ⟨numbers, other, later, rfl, ho⟩
  · obtain ⟨y, -, rfl⟩ := List.mem_map.1 hitem
    cases hnone
  cases numbers with
  | cons x numbers =>
    refine ⟨other, List.mem_append_right _ List.mem_cons_self, ho, _, ?_,
      fails_avg_of_fold1 h fun body hb => fails_fold1_later h hb x numbers ho⟩
    rfl
  | nil =>
    cases later with
    | nil => exact ⟨other, List.mem_cons_self, ho, _, rfl, fails_avg_single h ho⟩
    | cons upper later =>
      -- the second item is looked at before the first one
      obtain ⟨found, hfound⟩ : ∃ found, [upper, other].find? (·.number?.isNone) = some found :=
        Option.isSome_iff_exists.1 (List.find?_isSome.2
          ⟨other, by simp, Option.isNone_iff_eq_none.2 ho⟩)
      have hm : found ∈ [upper, other] := List.mem_of_find?_eq_some hfound
      have hn : found.number?.isNone = true :=
        List.find?_some (p := fun item : Value => item.number?.isNone) hfound
      refine ⟨found, ?_, Option.isNone_iff_eq_none.1 hn, _, rfl, fails_avg_of_fold1 h fun body hb =>
        fails_fold1_second h hb hfound⟩
      rcases List.mem_pair.1 hm with rfl | rfl <;> simp

theorem fails_var (hf : d.Fails 2 [.word "avg"] [.sequence items] error) :
    d.Fails 3 [.word "var"] [.sequence items] (error.inFrame "var") := by
  refine .library h (by decide) rfl ?_
  refine .primitive (h.lookup?_primitive .copy (by decide)) rfl ?_
  exact (hf.framed [.sequence items]).first _

theorem fails_stddev (hf : d.Fails 2 [.word "avg"] [.sequence items] error) :
    d.Fails 4 [.word "stddev"] [.sequence items]
      ((error.inFrame "var").inFrame "stddev") :=
  .library h (by decide) rfl ((fails_var h hf).first _)

end Failures

end Dictionary

/-- While the statistical words keep their meanings and four levels of nesting are left, they leave
the values of their formulas for a sequence of numbers. Without a number `fold1` fails in the mean,
and on an item that is no number the mean fails too; the other words then fail with it. -/
theorem statisticsWords_leave {s : Session} (hd : s.dictionary.Keeps statisticsWords)
    (hroom : 4 ≤ s.room) {items below : List Value}
    (hs : s.stack.values = [.sequence items] ++ below) :
    (∀ x numbers, items = (x :: numbers).map .number →
      s.Leaves "avg" [.sequence items] [.number (mean x numbers)] below ∧
      s.Leaves "var" [.sequence items] [.number (variance x numbers)] below ∧
      s.Leaves "stddev" [.sequence items] [.number (standardDeviation x numbers)] below) ∧
    (items = [] → ∀ position,
      let fails name trace := ∃ t, evaluate [⟨.word name, position⟩] s =
        .error { kind := .emptySequence, word := some "fold1", trace } t
      fails "avg" ["avg"] ∧ fails "var" ["avg", "var"] ∧
        fails "stddev" ["avg", "var", "stddev"]) ∧
    ((∃ item ∈ items, item.number? = none) →
      ∃ item ∈ items, item.number? = none ∧ ∀ name ∈ ["avg", "var", "stddev"], ∀ position,
        ∃ error t, evaluate [⟨.word name, position⟩] s = .error error t ∧
          error.kind = .typeMismatch "number" item.typeName) := by
  refine ⟨?_, ?_, fun hi => ?_⟩
  · rintro x numbers rfl
    exact ⟨(Dictionary.rewrites_avg hd x numbers).leaves (by omega) hs,
      (Dictionary.rewrites_var hd x numbers).leaves (by omega) hs,
      (Dictionary.rewrites_stddev hd x numbers).leaves hroom hs⟩
  · rintro rfl position
    have havg := Dictionary.fails_avg_of_fold1 hd fun body _ =>
      (Dictionary.fails_fold1_nil hd).mono (Nat.zero_le 1)
    exact ⟨havg.evaluate (by omega) hs position,
      (Dictionary.fails_var hd havg).evaluate (by omega) hs position,
      (Dictionary.fails_stddev hd havg).evaluate hroom hs position⟩
  · obtain ⟨item, hitem, hnone, error, hkind, havg⟩ := Dictionary.exists_fails_avg hd hi
    refine ⟨item, hitem, hnone, ?_⟩
    intro name hname position
    simp only [List.mem_cons, List.not_mem_nil, or_false] at hname
    rcases hname with rfl | rfl | rfl
    · obtain ⟨t, ht⟩ := havg.evaluate (by omega) hs position
      exact ⟨_, t, ht, hkind⟩
    · obtain ⟨t, ht⟩ := (Dictionary.fails_var hd havg).evaluate (by omega) hs position
      exact ⟨_, t, ht, hkind⟩
    · obtain ⟨t, ht⟩ := (Dictionary.fails_stddev hd havg).evaluate hroom hs position
      exact ⟨_, t, ht, hkind⟩

/-- One and three are one away from their mean. A word reference has no mean. -/
theorem statisticsWords_leave_two : ∃ s t : Session,
    s.dictionary.Keeps statisticsWords ∧ t.dictionary.Keeps statisticsWords ∧
    4 ≤ s.room ∧ 4 ≤ t.room ∧
    s.stack.values = [.sequence [.number 1, .number 3], .reference "a"] ∧
    t.stack.values = [.sequence [.reference "a"]] ∧
    s.Leaves "avg" [.sequence [.number 1, .number 3]] [.number 2] [.reference "a"] ∧
    s.Leaves "var" [.sequence [.number 1, .number 3]] [.number 1] [.reference "a"] ∧
    ∃ error u, evaluate [⟨.word "var", ⟨1, 1⟩⟩] t = .error error u ∧
      error.kind = .typeMismatch "number" "word reference" := by
  obtain ⟨d, hd⟩ := Session.exists_start
  have hkeeps := Dictionary.keeps_of_start rfl (hd {} [] {}) statisticsWords
  have hroom : 4 ≤ 1000 - 0 := by decide
  let s : Session := { dictionary := d,
                       stack := .ofBottom [.reference "a", .sequence [.number 1, .number 3]] }
  let t : Session := { dictionary := d, stack := .ofBottom [.sequence [.reference "a"]] }
  obtain ⟨havg, hvar, -⟩ := (statisticsWords_leave (s := s) hkeeps hroom rfl).1 1 [3] rfl
  obtain ⟨item, hitem, -, hfails⟩ := (statisticsWords_leave (s := t) hkeeps hroom rfl).2.2
    ⟨.reference "a", List.mem_singleton_self _, rfl⟩
  obtain rfl := List.mem_singleton.1 hitem
  have hmean : mean 1 [3] = 2 := by decide +kernel
  have hvariance : variance 1 [3] = 1 := by decide +kernel
  rw [hmean] at havg
  rw [hvariance] at hvar
  exact ⟨s, t, hkeeps, hkeeps, hroom, hroom, rfl, rfl, havg, hvar,
    hfails "var" (by simp) ⟨1, 1⟩⟩

end StackCalc
