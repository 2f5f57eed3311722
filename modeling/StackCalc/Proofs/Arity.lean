import StackCalc.Proofs.BodyCalls

/-!
What the combinators `map`, `fold`, `fold1` and `filter` hold their bodies to. A combinator that
succeeds has put one value in place of its operands. It gives up a body exactly if the body took off
or moved a value below its operands, anywhere in what it ran, or did not leave one value for them.
-/
namespace StackCalc

open Eval Log

section Loops
variable {call : Caller} {log : CallLog call} (hc : ∀ frame body, Sound (log frame body))
  {frame : String} {body : List Token} {s t : Session} {items : List Value}
include hc

theorem stack_of_mapM_mapStep {base : Nat} {results : List Value}
    (h : items.mapM (Eval.mapStep call frame body base) s = .ok results t)
    (hs : s.stack.height = base) (hm : s.stack.mark ≤ base) : t.stack = s.stack :=
  ((Steady.mapM (Steady.mapStep (hc frame body)) items).keeps h hs hm).1

theorem stack_of_mapM_filterStep {base : Nat} {verdicts : List (Value × Bool)}
    (h : items.mapM (Eval.filterStep call frame body base) s = .ok verdicts t)
    (hs : s.stack.height = base) (hm : s.stack.mark ≤ base) : t.stack = s.stack :=
  ((Steady.mapM (Steady.filterStep (hc frame body)) items).keeps h hs hm).1

theorem stack_of_foldlM_reduceStep {base : Nat} {first result : Value}
    (h : items.foldlM (Eval.reduceStep call frame body base) first s = .ok result t)
    (hs : s.stack.height = base) (hm : s.stack.mark ≤ base) : t.stack = s.stack :=
  ((Steady.foldlM (Steady.reduceStep (hc frame body)) items first).keeps h hs hm).1

end Loops

theorem stack_dropped {s : Session} {count : Nat} {below : List Value}
    (h : s.stack.values.drop count = below) :
    (s.dropped count).stack.values = below ∧ (s.dropped count).stack.height = below.length ∧
      (s.dropped count).stack.mark ≤ below.length := by
  have hh : (s.stack.dropped count).height = below.length := by
    rw [(s.stack.dropped count).height_eq, Stack.values_dropped, h]
  refine ⟨h, hh, ?_⟩
  rw [← hh]
  exact Nat.min_le_right _ _

section Results
variable {call : Caller} {log : CallLog call} (hc : ∀ frame body, Sound (log frame body))
  {frame : String} {s t : Session} {a : Unit}
include hc

theorem map_result (h : Eval.map call frame s = .ok a t) : ∃ body items results below,
    s.stack.values = .quotation body :: .sequence items :: below ∧
      t.stack.values = .sequence results :: below ∧ results.length = items.length := by
  obtain ⟨body, items, below, hs⟩ := operands_of_map h
  have hdrop : s.stack.values.drop 2 = below := congrArg (List.drop 2) hs
  obtain ⟨hv, hh, hm⟩ := stack_dropped hdrop
  rw [map_of_operands hs] at h
  obtain ⟨results, u, hr, hp⟩ := bind_eq_ok.1 h
  have hu := stack_of_mapM_mapStep hc hr hh hm
  cases hp
  refine ⟨body, items, results, below, hs, ?_, (forall₂_of_mapM hr).length_eq.symm⟩
  rw [← hv, hu]
  rfl

theorem filter_result (h : Eval.filter call frame s = .ok a t) : ∃ body items kept below,
    s.stack.values = .quotation body :: .sequence items :: below ∧
      t.stack.values = .sequence kept :: below ∧ kept.Sublist items := by
  obtain ⟨body, items, below, hs⟩ := operands_of_filter h
  have hdrop : s.stack.values.drop 2 = below := congrArg (List.drop 2) hs
  obtain ⟨hv, hh, hm⟩ := stack_dropped hdrop
  rw [filter_of_operands hs] at h
  obtain ⟨verdicts, u, hr, hp⟩ := bind_eq_ok.1 h
  have hu := stack_of_mapM_filterStep hc hr hh hm
  have hkept : ((verdicts.filter (·.2)).map (·.1)).Sublist (verdicts.map (·.1)) :=
    List.filter_sublist.map _
  rw [fst_of_mapM_filterStep hr] at hkept
  cases hp
  refine ⟨body, items, _, below, hs, ?_, hkept⟩
  rw [← hv, hu]
  rfl

theorem fold_result (h : Eval.fold call frame s = .ok a t) : ∃ body start items value below,
    s.stack.values = .quotation body :: start :: .sequence items :: below ∧
      t.stack.values = value :: below := by
  obtain ⟨body, start, items, below, hs⟩ := operands_of_fold h
  have hdrop : s.stack.values.drop 3 = below := congrArg (List.drop 3) hs
  obtain ⟨hv, hh, hm⟩ := stack_dropped hdrop
  rw [fold_of_operands hs] at h
  obtain ⟨value, u, hr, hp⟩ := bind_eq_ok.1 h
  have hu := stack_of_foldlM_reduceStep hc hr hh hm
  cases hp
  refine ⟨body, start, items, value, below, hs, ?_⟩
  rw [← hv, hu]
  rfl

theorem fold1_result (h : Eval.fold1 call frame s = .ok a t) : ∃ body items value below,
    s.stack.values = .quotation body :: .sequence items :: below ∧
      t.stack.values = value :: below := by
  obtain ⟨body, first, items, below, hs⟩ := operands_of_fold1 h
  have hdrop : s.stack.values.drop 2 = below := congrArg (List.drop 2) hs
  obtain ⟨hv, hh, hm⟩ := stack_dropped hdrop
  rw [fold1_of_operands hs] at h
  obtain ⟨value, u, hr, hp⟩ := bind_eq_ok.1 h
  have hu := stack_of_foldlM_reduceStep hc hr hh hm
  cases hp
  refine ⟨body, first :: items, value, below, hs, ?_⟩
  rw [← hv, hu]
  rfl

end Results

section Verdict
variable {call : Caller} {log : CallLog call} {operation : Primitive} {s t u : Session}
  {body : List Token} {base : Nat}

/-- The operands of a body lie above the values that it must leave alone. -/
theorem bounds_of_bodyCall (hc : ∀ frame body, Sound (log frame body))
    (h : BodyCall call s operation body base u) :
    base ≤ u.stack.height ∧ u.stack.mark ≤ base := by
  cases h with
  | @map _ _ _ below _ _ _ hs hd =>
    have hdrop : s.stack.values.drop 2 = below := congrArg (List.drop 2) hs
    obtain ⟨-, hh, hm⟩ := stack_dropped hdrop
    have ht := stack_of_mapM_mapStep hc hd hh hm
    rw [← ht] at hh hm
    exact ⟨hh ▸ Nat.le_add_right _ 1, hm⟩
  | @filter _ _ _ below _ _ _ hs hd =>
    have hdrop : s.stack.values.drop 2 = below := congrArg (List.drop 2) hs
    obtain ⟨-, hh, hm⟩ := stack_dropped hdrop
    have ht := stack_of_mapM_filterStep hc hd hh hm
    rw [← ht] at hh hm
    exact ⟨hh ▸ Nat.le_add_right _ 1, hm⟩
  | @fold _ _ _ below _ _ _ _ hs hd =>
    have hdrop : s.stack.values.drop 3 = below := congrArg (List.drop 3) hs
    obtain ⟨-, hh, hm⟩ := stack_dropped hdrop
    have ht := stack_of_foldlM_reduceStep hc hd hh hm
    rw [← ht] at hh hm
    exact ⟨hh ▸ Nat.le_add_right _ 2, hm⟩
  | @fold1 _ _ _ below _ _ _ _ hs hd =>
    have hdrop : s.stack.values.drop 2 = below := congrArg (List.drop 2) hs
    obtain ⟨-, hh, hm⟩ := stack_dropped hdrop
    have ht := stack_of_foldlM_reduceStep hc hd hh hm
    rw [← ht] at hh hm
    exact ⟨hh ▸ Nat.le_add_right _ 2, hm⟩

variable {frame : String} (hc : Sound (log frame body)) (hb : base ≤ u.stack.height)
  (h : call frame body (watchEntered u) = .ok () t)
include hc hb h

/-- A body is given up that took off or moved what lies below its operands, or did not leave one
value for them. -/
theorem singleResult_rejected
    (hr : (∃ i ∈ touchedAt u.enclosing.length (log frame body (watchEntered u)), i < base) ∨
      t.stack.height ≠ base + 1) :
    Eval.singleResult call frame body base u =
      .error { kind := .arity 1 (t.stack.height -
        (touchedAt u.enclosing.length (log frame body (watchEntered u))).foldl min base) }
        (watchLeft u.stack.mark t) := by
  have hfound : min t.stack.mark base =
      (touchedAt u.enclosing.length (log frame body (watchEntered u))).foldl min base := by
    rw [(hc.keeps h (Nat.le_refl _)).mark_eq]
    exact Stack.min_foldl_min hb
  rw [← mark_lt_iff hc hb h] at hr
  rw [singleResult_of_ok h, if_pos hr, hfound]

/-- Any other body is accepted, and its result taken. -/
theorem singleResult_accepted (hm : u.stack.mark ≤ base)
    (hr : ¬ ((∃ i ∈ touchedAt u.enclosing.length (log frame body (watchEntered u)), i < base) ∨
      t.stack.height ≠ base + 1)) :
    ∃ value v, Eval.singleResult call frame body base u = .ok value v ∧
      t.stack.values = value :: v.stack.values ∧
      v.stack.values = u.stack.values.drop (u.stack.height - base) := by
  rw [← mark_lt_iff hc hb h] at hr
  have hheight : t.stack.height = base + 1 := by omega
  cases hv : t.stack.values with
  | nil =>
    have := t.stack.height_eq
    rw [hv, hheight] at this
    cases this
  | cons value rest =>
    obtain ⟨v, hp, hvv, -⟩ := Stack.pop_of_cons (s := (watchLeft u.stack.mark t).stack) hv
    have hs : Eval.singleResult call frame body base u =
        .ok value { watchLeft u.stack.mark t with stack := v } := by
      rw [singleResult_of_ok h, if_neg hr, onStack, hp]
    refine ⟨value, _, hs, by rw [hvv], ?_⟩
    exact ((Settles.singleResult hc).keeps hs hb hm).1

end Verdict

/-- Copies leave no trace in what a log touches. -/
theorem touchedAt_filter_copies (level : Nat) (entries : List Invocation) :
    touchedAt level (entries.filter fun e => e.operation ≠ .copy ∧ e.operation ≠ .copySecond) =
      touchedAt level entries := by
  rw [touchedAt, List.filterMap_filter]
  refine List.filterMap_congr fun e _ => ?_
  split
  · rfl
  next he =>
    have hcopy : e.operation = .copy ∨ e.operation = .copySecond := by
      simpa [Decidable.or_iff_not_imp_left] using he
    rcases hcopy with hcopy | hcopy <;> simp [Invocation.touched, hcopy, Primitive.taken]

/-- Where a combinator succeeds, one value stands in place of its operands, and all that was below
them is unchanged. At each call of a body that ends without an error, the combinator fails exactly
if the call took off or moved a value below the operands, or did not leave one value for them;
copies do not count. -/
theorem combinator_stack_effect (room : Nat) (operation : Primitive) (s : Session) :
    (match operation, Eval.invoke (Eval.callWithin room) operation s with
      | .map, .ok _ t => ∃ body items results below,
          s.stack.values = .quotation body :: .sequence items :: below ∧
          t.stack.values = .sequence results :: below ∧ results.length = items.length
      | .filter, .ok _ t => ∃ body items kept below,
          s.stack.values = .quotation body :: .sequence items :: below ∧
          t.stack.values = .sequence kept :: below ∧ kept.Sublist items
      | .fold, .ok _ t => ∃ body start items value below,
          s.stack.values = .quotation body :: start :: .sequence items :: below ∧
          t.stack.values = value :: below
      | .fold1, .ok _ t => ∃ body items value below,
          s.stack.values = .quotation body :: .sequence items :: below ∧
          t.stack.values = value :: below
      | _, _ => True) ∧
    ∀ body base u, BodyCall (Eval.callWithin room) s operation body base u →
      match Eval.callWithin room operation.name body (watchEntered u) with
      | .error error _ => ∃ v, Eval.invoke (Eval.callWithin room) operation s = .error error v
      | .ok _ t =>
        let entries := Log.callWithin room operation.name body (watchEntered u)
        let touched := touchedAt u.enclosing.length entries
        (touched = touchedAt u.enclosing.length
          (entries.filter fun e => e.operation ≠ .copy ∧ e.operation ≠ .copySecond)) ∧
        ((∃ i ∈ touched, i < base) ∨ t.stack.height ≠ base + 1 →
          ∃ v, Eval.invoke (Eval.callWithin room) operation s =
            .error { kind := .arity 1 (t.stack.height - touched.foldl min base) } v) ∧
        (¬ ((∃ i ∈ touched, i < base) ∨ t.stack.height ≠ base + 1) →
          ∃ value v, Eval.singleResult (Eval.callWithin room) operation.name body base u =
              .ok value v ∧
            t.stack.values = value :: v.stack.values ∧
            v.stack.values = u.stack.values.drop (u.stack.height - base)) := by
  have hc : ∀ frame body, Sound (Log.callWithin room frame body) := Sound.callWithin room
  constructor
  · cases operation with
    | map =>
      cases hi : Eval.invoke (Eval.callWithin room) .map s with
      | error error t => trivial
      | ok next t => exact map_result hc (only_eq_ok.1 hi).1
    | filter =>
      cases hi : Eval.invoke (Eval.callWithin room) .filter s with
      | error error t => trivial
      | ok next t => exact filter_result hc (only_eq_ok.1 hi).1
    | fold =>
      cases hi : Eval.invoke (Eval.callWithin room) .fold s with
      | error error t => trivial
      | ok next t => exact fold_result hc (only_eq_ok.1 hi).1
    | fold1 =>
      cases hi : Eval.invoke (Eval.callWithin room) .fold1 s with
      | error error t => trivial
      | ok next t => exact fold1_result hc (only_eq_ok.1 hi).1
    | _ => cases Eval.invoke (Eval.callWithin room) _ s <;> trivial
  · intro body base u hcall
    obtain ⟨hb, hm⟩ := bounds_of_bodyCall hc hcall
    cases hr : Eval.callWithin room operation.name body (watchEntered u) with
    | error error t => exact ⟨_, hcall.error (singleResult_of_error hr)⟩
    | ok _ t =>
      refine ⟨(touchedAt_filter_copies ..).symm, ?_, ?_⟩
      · intro hstray
        exact ⟨_, hcall.error (singleResult_rejected (hc _ _) hb hr hstray)⟩
      · intro hkeep
        exact singleResult_accepted (hc _ _) hb hr hm hkeep

/-- A session with a value below the operands of `map`, and a body that swaps. -/
def swapSession : Session where
  settings := { maxDepth := 1 }
  dictionary := Dictionary.empty.define "swap" (.primitive .swap)
  stack := .ofBottom [.reference "a", .sequence [.reference "b"],
    .quotation [⟨.word "swap", ⟨1, 1⟩⟩]]

/-- The session from which the body is called. -/
def swapOperands : Session :=
  (swapSession.dropped 2).pushed (.reference "b")

/-- What the call of the body finds. -/
def swapCalled : Session :=
  { watchEntered swapOperands with depth := 1 }

/-- A body that swaps its operand with a value below is given up, though it leaves one value. -/
theorem map_swap_rejected :
    BodyCall (Eval.callWithin swapSession.room) swapSession .map [⟨.word "swap", ⟨1, 1⟩⟩] 1
      swapOperands ∧
    ∃ v, Eval.invoke (Eval.callWithin swapSession.room) .map swapSession =
      .error { kind := .arity 1 2 } v := by
  have hcall : BodyCall (Eval.callWithin swapSession.room) swapSession .map
      [⟨.word "swap", ⟨1, 1⟩⟩] 1 swapOperands :=
    @BodyCall.map _ _ _ [] [] [.reference "a"] [] _ _ rfl rfl
  have hl : swapCalled.dictionary.lookup? "swap" = some (.primitive .swap) := by
    simp [swapCalled, swapOperands, watchEntered, Session.pushed, Session.dropped, swapSession,
      Dictionary.lookup?_define]
  obtain ⟨t, hi, ht⟩ : ∃ t, Eval.invoke (Eval.callWithin 0) .swap swapCalled = .ok none t ∧
      t.stack.height = 2 := ⟨_, rfl, rfl⟩
  have hx := execute_primitive_ok hl hi
  have hrun : Eval.run (Eval.callWithin 0) [⟨.word "swap", ⟨1, 1⟩⟩] swapCalled = .ok () t := by
    rw [Eval.run_word, StackCalc.bind_of_ok hx, run_nil]
    rfl
  have hlog : Log.run (Log.callWithin 0) [⟨.word "swap", ⟨1, 1⟩⟩] swapCalled =
      [⟨.swap, swapCalled⟩] := by
    rw [Log.run, Log.bind_of_ok hx, Log.execute, executeFrom_last _ hl (by simp [hi]), Log.run]
    rfl
  have hv := (combinator_stack_effect swapSession.room .map swapSession).2 _ _ _ hcall
  have hbody : Eval.callWithin swapSession.room Primitive.map.name [⟨.word "swap", ⟨1, 1⟩⟩]
      (watchEntered swapOperands) = .ok () { t with depth := t.depth - 1 } :=
    inFrame_of_ok hrun
  have htouched : touchedAt swapOperands.enclosing.length (Log.callWithin swapSession.room
      Primitive.map.name [⟨.word "swap", ⟨1, 1⟩⟩] (watchEntered swapOperands)) = [0] := by
    show touchedAt 0 (Log.run (Log.callWithin 0) _ swapCalled) = [0]
    rw [hlog]
    rfl
  rw [hbody] at hv
  simp only [htouched, ht] at hv
  exact ⟨hcall, hv.2.1 (.inl ⟨0, List.mem_singleton_self 0, Nat.one_pos⟩)⟩

end StackCalc
