import StackCalc.Proofs.Concatenation
import StackCalc.Proofs.Traversal

/-!
The sum of a sequence, and the fold of addition over it. Both add the numbers up in the same order,
from zero on, and both fail at the first item that is no number.
-/
namespace StackCalc

open Eval

/-- All items are numbers, or there is a first one that is none. -/
theorem numbers_or_first_other (items : List Value) :
    (∃ numbers : List Float, items = numbers.map Value.number) ∨
      ∃ (numbers : List Float) (other : Value) (later : List Value),
        items = numbers.map Value.number ++ other :: later ∧ other.number? = none := by
  induction items with
  | nil => exact .inl ⟨[], rfl⟩
  | cons item items ih =>
    cases hn : item.number? with
    | none => exact .inr ⟨[], item, items, rfl, hn⟩
    | some x =>
      have hitem : item = .number x := by
        cases item <;> cases hn
        rfl
      rcases ih with ⟨numbers, rfl⟩ | ⟨numbers, other, later, rfl, ho⟩
      · exact .inl ⟨x :: numbers, by rw [hitem, List.map_cons]⟩
      · exact .inr ⟨x :: numbers, other, later, by rw [hitem, List.map_cons, List.cons_append], ho⟩

namespace Eval

theorem total_numbers (x : Float) (numbers : List Float) :
    total x (numbers.map Value.number) = .ok (numbers.foldl (· + ·) x) := by
  induction numbers generalizing x with
  | nil => rfl
  | cons y numbers ih => exact ih (x + y)

theorem total_other (x : Float) (numbers : List Float) {other : Value} (later : List Value)
    (h : other.number? = none) :
    total x (numbers.map Value.number ++ other :: later) =
      .error (.typeMismatch "number" other.typeName) := by
  induction numbers generalizing x with
  | nil =>
    rw [List.map_nil, List.nil_append, total, h]
  | cons y numbers ih => exact ih (x + y)

variable {s : Session} {items below : List Value}

theorem sum_of_operand (h : s.stack.values = .sequence items :: below) :
    sum s = (match total 0 items with
      | .ok value => push (.number value)
      | .error kind => fail kind) (s.dropped 1) := by
  have hp : Stack.popSequence s.stack = .ok items (s.stack.dropped 1) :=
    Stack.popSequence_eq_ok.2 (Stack.pop_eq_ok.2 ⟨below, h, rfl⟩)
  exact bind_of_ok (onStack_eq_ok.2 ⟨_, hp, rfl⟩)

theorem invoke_sum_numbers (call : Caller) {numbers : List Float}
    (h : s.stack.values = .sequence (numbers.map Value.number) :: below) :
    invoke call .sum s =
      .ok none ((s.dropped 1).pushed (.number (numbers.foldl (· + ·) 0))) := by
  refine only_eq_ok.2 ⟨?_, rfl⟩
  rw [sum_of_operand h, total_numbers]
  rfl

theorem invoke_sum_other (call : Caller) {numbers : List Float} {other : Value}
    {later : List Value}
    (h : s.stack.values = .sequence (numbers.map Value.number ++ other :: later) :: below)
    (ho : other.number? = none) :
    invoke call .sum s =
      .error { kind := .typeMismatch "number" other.typeName } (s.dropped 1) := by
  refine bind_of_error ?_
  rw [sum_of_operand h, total_other 0 numbers later ho]
  rfl

end Eval

/-- Values are added as the numbers that they are. -/
def Value.plus : Value → Value → Value
  | .number x, .number y => .number (x + y)
  | value, _ => value

theorem foldl_plus (x : Float) (numbers : List Float) :
    (numbers.map Value.number).foldl Value.plus (.number x) =
      .number (numbers.foldl (· + ·) x) := by
  induction numbers generalizing x with
  | nil => rfl
  | cons y numbers ih => exact ih (x + y)

section Fold
variable {t : Session} {add : String} (hadd : t.dictionary.lookup? add = some (.primitive .add))
  (hroom : t.depth < t.settings.maxDepth) (position : Text.Position)
include hadd hroom

/-- A word for addition computes the sum of its operands. -/
theorem computes_add (x y : Float) :
    t.Computes [⟨.word add, position⟩] [.number x, .number y] (.number (x + y)) := by
  -- both operands are taken off, one after the other, down to the base
  have hmark : t.stack.height ≤
      min (min (t.stack.height + 2) (t.stack.height + 1)) t.stack.height :=
    Nat.le_min.2 ⟨Nat.le_min.2 ⟨Nat.le_add_right _ 2, Nat.le_succ _⟩, Nat.le_refl _⟩
  exact .of_primitive position hadd hroom (fun _ => rfl) rfl hmark

/-- It fails on an operand that is no number, and looks at the upper operand first. -/
theorem call_add_other (frame : String) {lower upper other : Value}
    (h : [upper, lower].find? (·.number?.isNone) = some other) :
    ∃ v, callWithin t.room frame [⟨.word add, position⟩]
      (watchEntered ((t.pushed lower).pushed upper)) =
        .error { kind := .typeMismatch "number" other.typeName, word := some add,
                 trace := [frame] } v := by
  have hlimit : ¬ t.settings.maxDepth ≤ t.depth := Nat.not_le.2 hroom
  obtain ⟨v, hi⟩ : ∃ v, invoke (callWithin (t.settings.maxDepth - (t.depth + 1))) .add
      { watchEntered ((t.pushed lower).pushed upper) with depth := t.depth + 1 } =
        .error { kind := .typeMismatch "number" other.typeName } v := by
    cases upper with
    | number y =>
      cases lower with
      | number x => cases h
      | _ =>
        cases h
        exact ⟨_, rfl⟩
    | _ =>
      cases h
      exact ⟨_, rfl⟩
  have hx := execute_primitive_error
    (s := { watchEntered ((t.pushed lower).pushed upper) with depth := t.depth + 1 }) hadd hi
  have hrun : evaluate [⟨.word add, position⟩]
      { watchEntered ((t.pushed lower).pushed upper) with depth := t.depth + 1 } =
        .error { kind := .typeMismatch "number" other.typeName, word := some add } v := by
    rw [evaluate, run_single]
    exact hx
  have hcall := callWithin_room frame [⟨.word add, position⟩]
    (watchEntered ((t.pushed lower).pushed upper))
  exact ⟨_, (hcall.trans (if_neg hlimit)).trans (inFrame_of_error hrun)⟩

/-- The fold goes through the numbers in front, and leaves the session as it was. -/
theorem rounds_add (hm : t.stack.mark ≤ t.stack.height) (frame : String) (x : Float)
    (numbers : List Float) : ∃ calls, Rounds (callWithin t.room) frame
      [⟨.word add, position⟩] t.stack.height (.reduced (.number x)) t (numbers.map Value.number)
      calls (.reduced (.number (numbers.foldl (· + ·) x))) t := by
  let f (harvest : Harvest) : Value → Value := Value.plus harvest.yield
  have hcomputes : ∀ done item later, numbers.map Value.number = done ++ item :: later →
      t.Computes [⟨.word add, position⟩]
        (((Harvest.reduced (.number x)).after f done).operands item)
        (f ((Harvest.reduced (.number x)).after f done) item) := by
    intro done item later hd
    -- the items are numbers, and so are the sums of those in front
    obtain ⟨front, back, rfl, rfl, hb⟩ := List.map_eq_append_iff.1 hd
    obtain ⟨y, rest, rfl, rfl, -⟩ := List.map_eq_cons_iff.1 hb
    rw [Harvest.after_reduced, foldl_plus]
    exact computes_add hadd hroom position _ y
  obtain ⟨calls, h⟩ := rounds_of_computes (.reduced (.number x)) frame f hm hcomputes
  rw [Harvest.after_reduced, foldl_plus] at h
  exact ⟨calls, h⟩

variable {s : Session} {operation : Primitive} {x : Float} {numbers : List Float}

theorem invoke_fold_numbers
    (h : Traverses s operation [⟨.word add, position⟩] (.reduced (.number x))
      (numbers.map Value.number) t) :
    invoke (callWithin t.room) operation s =
      .ok none (t.pushed (.number (numbers.foldl (· + ·) x))) := by
  obtain ⟨calls, hrounds⟩ := rounds_add hadd hroom position h.mark_le operation.name x numbers
  have hgather := hrounds.gather []
  rw [List.append_nil] at hgather
  rw [h.invoke]
  exact only_eq_ok.2 ⟨hgather, rfl⟩

/-- The fold gets to the first addition that fails. -/
theorem invoke_fold_of_rounds {start lower upper other : Value} {done later : List Value}
    {calls : List Session}
    (h : Traverses s operation [⟨.word add, position⟩] (.reduced start) (done ++ upper :: later) t)
    (hrounds : Rounds (callWithin t.room) operation.name [⟨.word add, position⟩] t.stack.height
      (.reduced start) t done calls (.reduced lower) t)
    (ho : [upper, lower].find? (·.number?.isNone) = some other) :
    ∃ u, invoke (callWithin t.room) operation s =
      .error { kind := .typeMismatch "number" other.typeName, word := some add,
               trace := [operation.name] } u := by
  obtain ⟨v, hcall⟩ := call_add_other hadd hroom position operation.name ho
  have hgather := (hrounds.gather (upper :: later)).trans
    (bind_of_error (singleResult_of_error hcall))
  rw [h.invoke]
  exact ⟨_, bind_of_error hgather⟩

theorem invoke_fold_other {other : Value} {later : List Value}
    (h : Traverses s operation [⟨.word add, position⟩] (.reduced (.number x))
      (numbers.map Value.number ++ other :: later) t)
    (ho : other.number? = none) :
    ∃ u, invoke (callWithin t.room) operation s =
      .error { kind := .typeMismatch "number" other.typeName, word := some add,
               trace := [operation.name] } u := by
  -- the accumulator is a number, so that the addition fails on the item
  obtain ⟨calls, hrounds⟩ := rounds_add hadd hroom position h.mark_le operation.name x numbers
  exact invoke_fold_of_rounds hadd hroom position h hrounds
    (List.find?_cons_of_pos (Option.isNone_iff_eq_none.2 ho))

end Fold

section Words
variable {s : Session} {items below : List Value} {add fold : String}

/-- A fold over the sequence on top, whose start and body are pushed before it. -/
theorem traverses_pushed (hs : s.stack.values = .sequence items :: below) (start : Value)
    (body : List Token) :
    Traverses ((s.pushed start).pushed (.quotation body)) .fold body (.reduced start) items
      (s.dropped 1) := by
  let u := (s.pushed start).pushed (.quotation body)
  have hoperands : u.stack.values = .quotation body :: start :: .sequence items :: below :=
    congrArg _ (congrArg _ hs)
  have htraverses : Traverses u .fold body (.reduced start) items (u.dropped 3) := .fold hoperands
  -- two were pushed, so that of the three only the sequence was there before
  have hheight : u.stack.height - 3 = s.stack.height - 1 := by
    simp only [u, Session.pushed, Stack.pushed]
    omega
  have hstack : u.stack.dropped 3 = s.stack.dropped 1 :=
    Stack.ext rfl (congrArg (min s.stack.mark) hheight)
  have hdropped : u.dropped 3 = s.dropped 1 := congrArg (fun stack => { s with stack }) hstack
  rwa [hdropped] at htraverses

/-- The words of the fold put their operands on the stack, and execute it. -/
theorem evaluate_fold_add (p : Nat → Text.Position) (s : Session) :
    evaluate [⟨.number 0, p 0⟩, ⟨.opener .brace, p 1⟩, ⟨.word add, p 2⟩, ⟨.closer .brace, p 3⟩,
        ⟨.word fold, p 4⟩] s =
      execute (callWithin s.room) fold
        ((s.pushed (.number 0)).pushed (.quotation [⟨.word add, p 2⟩])) := by
  have hbody : Token.Nested [⟨.word add, p 2⟩] := .plain rfl .nil
  have hquotation := evaluate_quotation hbody (p 1) (p 3) [⟨.word fold, p 4⟩]
  rw [evaluate_number]
  exact (hquotation _).trans (evaluate_single fold (p 4) _)

/-- What errors call a value that is no number. -/
inductive IsNamed : Value → String → Prop where
  | sequence (items : List Value) : IsNamed (.sequence items) "sequence"
  | quotation (body : List Token) : IsNamed (.quotation body) "quotation"
  | reference (name : String) : IsNamed (.reference name) "word reference"

theorem isNamed_typeName {value : Value} (h : value.number? = none) :
    IsNamed value value.typeName := by
  cases value with
  | number x => cases h
  | sequence items => exact .sequence items
  | quotation body => exact .quotation body
  | reference name => exact .reference name

/-- `sum` and the fold of addition from zero: where all items are numbers, both push their sum,
added up from the left, and leave the same session. Else both fail, and say what the first item is
that is no number. -/
theorem sum_eq_fold_add {s : Session} {items below : List Value} {sum add fold : String}
    (hsum : s.dictionary.lookup? sum = some (.primitive .sum))
    (hadd : s.dictionary.lookup? add = some (.primitive .add))
    (hfold : s.dictionary.lookup? fold = some (.primitive .fold))
    (hroom : s.depth < s.settings.maxDepth) (hs : s.stack.values = .sequence items :: below)
    (p : Nat → Text.Position) :
    let summed := evaluate [⟨.word sum, p 5⟩] s
    let folded := evaluate [⟨.number 0, p 0⟩, ⟨.opener .brace, p 1⟩, ⟨.word add, p 2⟩,
      ⟨.closer .brace, p 3⟩, ⟨.word fold, p 4⟩] s
    (∃ numbers : List Float, items = numbers.map Value.number ∧
      summed = .ok () ((s.dropped 1).pushed (.number (numbers.foldl (· + ·) 0))) ∧
      folded = .ok () ((s.dropped 1).pushed (.number (numbers.foldl (· + ·) 0)))) ∨
    ∃ (numbers : List Float) (other : Value) (later : List Value) (found : String) (t t' : Session),
      items = numbers.map Value.number ++ other :: later ∧ IsNamed other found ∧
      summed = .error { kind := .typeMismatch "number" found, word := some sum } t ∧
      folded = .error { kind := .typeMismatch "number" found, word := some add,
                        trace := ["fold"] } t' := by
  intro summed folded
  let u := (s.pushed (.number 0)).pushed (.quotation [⟨.word add, p 2⟩])
  have hsummed : summed = execute (callWithin s.room) sum s := evaluate_single sum (p 5) s
  have hfolded : folded = execute (callWithin s.room) fold u := evaluate_fold_add p s
  have htraverses := traverses_pushed hs (.number 0) [⟨.word add, p 2⟩]
  rw [hsummed, hfolded]
  rcases numbers_or_first_other items with ⟨numbers, rfl⟩ | ⟨numbers, other, later, rfl, ho⟩
  · have hisum := invoke_sum_numbers (callWithin s.room) hs
    have hifold := invoke_fold_numbers (t := s.dropped 1) hadd hroom (p 2) htraverses
    exact .inl ⟨numbers, rfl, execute_primitive_ok hsum hisum,
      execute_primitive_ok (s := u) hfold hifold⟩
  · have hisum := invoke_sum_other (callWithin s.room) hs ho
    obtain ⟨t, hifold⟩ := invoke_fold_other (t := s.dropped 1) hadd hroom (p 2) htraverses ho
    exact .inr ⟨numbers, other, later, other.typeName, _, t, rfl, isNamed_typeName ho,
      execute_primitive_error hsum hisum,
      execute_primitive_error (s := u) hfold hifold⟩

end Words

/-- Both words make three of one and two, and both refuse a quotation between a number and a
reference. -/
theorem sum_of_samples :
    let summed := evaluate [⟨.word "sum", ⟨1, 1⟩⟩]
    let folded := evaluate [⟨.number 0, ⟨1, 1⟩⟩, ⟨.opener .brace, ⟨1, 1⟩⟩, ⟨.word "add", ⟨1, 1⟩⟩,
      ⟨.closer .brace, ⟨1, 1⟩⟩, ⟨.word "fold", ⟨1, 1⟩⟩]
    let s := operandsSession [.sequence [.number 1, .number 2]]
    let s' := operandsSession [.sequence [.number 1, .quotation [], .reference "x"]]
    (summed s = .ok () ((s.dropped 1).pushed (.number 3)) ∧
      folded s = .ok () ((s.dropped 1).pushed (.number 3))) ∧
    ∃ t t', summed s' =
        .error { kind := .typeMismatch "number" "quotation", word := some "sum" } t ∧
      folded s' = .error { kind := .typeMismatch "number" "quotation", word := some "add",
                           trace := ["fold"] } t' := by
  intro summed folded s s'
  have hsum : s.dictionary.lookup? "sum" = some (.primitive .sum) := by decide +kernel
  have hadd : s.dictionary.lookup? "add" = some (.primitive .add) := by decide +kernel
  have hfold : s.dictionary.lookup? "fold" = some (.primitive .fold) := by decide +kernel
  constructor
  · rcases sum_eq_fold_add (s := s) hsum hadd hfold (by decide) rfl fun _ => ⟨1, 1⟩ with
      ⟨numbers, hn, hsummed, hfolded⟩ | ⟨numbers, other, later, _, _, _, hn, ho, -⟩
    · have hnumbers : [1, 2] = numbers :=
        List.map_injective_iff.2 (fun _ _ => Value.number.inj) hn
      subst hnumbers
      exact ⟨hsummed, hfolded⟩
    · have hmem : other ∈ [.number 1, .number 2] := hn ▸ List.mem_append_right _ List.mem_cons_self
      rcases List.mem_pair.1 hmem with rfl | rfl <;> cases ho
  · rcases sum_eq_fold_add (s := s') hsum hadd hfold (by decide) rfl fun _ => ⟨1, 1⟩ with
      ⟨numbers, hn, -⟩ | ⟨numbers, other, later, found, t, t', hn, ho, hsummed, hfolded⟩
    · -- a quotation is none of the numbers
      have hmem : Value.quotation [] ∈ numbers.map Value.number := hn ▸ by simp
      obtain ⟨x, -, hx⟩ := List.mem_map.1 hmem
      cases hx
    · -- the first item that is no number is the second one
      obtain rfl : other = .quotation [] := by
        rcases numbers with _ | ⟨x, _ | ⟨y, numbers⟩⟩
        · cases hn
          cases ho
        · cases hn
          rfl
        · cases hn
      cases ho
      exact ⟨t, t', hsummed, hfolded⟩

end StackCalc
