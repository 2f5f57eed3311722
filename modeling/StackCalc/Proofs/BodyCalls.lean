import Mathlib.Data.List.Forall2
import StackCalc.Proofs.Log.Evaluator
import StackCalc.Proofs.Operands

/-!
The calls that `map`, `fold`, `fold1` and `filter` make of their bodies. Each starts from the stack
below the operands of the combinator, with the operands of the body on top: the calls before it were
accepted, and left that stack as it was.
-/
namespace StackCalc

open Eval

/-! Loops that stop at the first error. -/

section Loops
variable {β ι : Type} {s t u : Session} {error : EvalError} {item : ι}

theorem forall₂_of_mapM {g : ι → Eval β} {items : List ι} {results : List β}
    (h : items.mapM g s = .ok results t) :
    List.Forall₂ (fun item result => ∃ u v, g item u = .ok result v) items results := by
  induction items generalizing s results with
  | nil =>
    cases h
    exact .nil
  | cons item rest ih =>
    rw [List.mapM_cons] at h
    obtain ⟨b, u, hb, h⟩ := bind_eq_ok.1 h
    obtain ⟨bs, v, hbs, h⟩ := bind_eq_ok.1 h
    cases h
    exact .cons ⟨s, u, hb⟩ (ih hbs)

theorem mapM_append_error {g : ι → Eval β} {done left : List ι} {results : List β}
    (hd : done.mapM g s = .ok results t) (h : g item t = .error error u) :
    (done ++ item :: left).mapM g s = .error error u := by
  rw [List.mapM_append, bind_of_ok hd, List.mapM_cons]
  exact bind_of_error (bind_of_error h)

theorem foldlM_append_error {g : β → ι → Eval β} {done left : List ι} {first b : β}
    (hd : done.foldlM g first s = .ok b t) (h : g b item t = .error error u) :
    (done ++ item :: left).foldlM g first s = .error error u := by
  rw [List.foldlM_append, bind_of_ok hd, List.foldlM_cons]
  exact bind_of_error h

end Loops

/-- The session without the topmost `count` values. -/
def Session.dropped (count : Nat) (s : Session) : Session :=
  { s with stack := s.stack.dropped count }

/-- The session with one more value. -/
def Session.pushed (s : Session) (value : Value) : Session :=
  { s with stack := s.stack.pushed value }

namespace Eval

section Steps
variable {call : Caller} {frame : String} {body : List Token} {base : Nat} {s t : Session}
  {items below : List Value} {start first : Value}

theorem height_dropped {count : Nat} (h : s.stack.values.drop count = below) :
    height (s.dropped count) = .ok below.length (s.dropped count) := by
  have hh : s.stack.height - count = below.length := by
    rw [s.stack.height_eq, ← h, List.length_drop]
  rw [← hh]
  rfl

theorem popSequenceBody_of_operands
    (h : s.stack.values = .quotation body :: .sequence items :: below) :
    onStack Stack.popSequenceBody s = .ok (items, body) (s.dropped 2) :=
  onStack_eq_ok.2 ⟨_, Stack.popSequenceBody_eq_ok.2 ⟨below, h, rfl⟩, rfl⟩

theorem map_of_operands
    (h : s.stack.values = .quotation body :: .sequence items :: below) :
    map call frame s =
      (items.mapM (mapStep call frame body below.length) >>= fun results =>
        push (.sequence results)) (s.dropped 2) := by
  have hdrop : s.stack.values.drop 2 = below := congrArg (List.drop 2) h
  rw [map, bind_of_ok (popSequenceBody_of_operands h)]
  exact bind_of_ok (height_dropped hdrop)

theorem filter_of_operands
    (h : s.stack.values = .quotation body :: .sequence items :: below) :
    filter call frame s =
      (items.mapM (filterStep call frame body below.length) >>= fun verdicts =>
        push (.sequence ((verdicts.filter (·.2)).map (·.1)))) (s.dropped 2) := by
  have hdrop : s.stack.values.drop 2 = below := congrArg (List.drop 2) h
  rw [filter, bind_of_ok (popSequenceBody_of_operands h)]
  exact bind_of_ok (height_dropped hdrop)

theorem reduce_of_height {t : Session} {base : Nat} (h : height t = .ok base t) :
    reduce call frame body first items t =
      items.foldlM (reduceStep call frame body base) first t := by
  rw [reduce]
  exact bind_of_ok h

theorem fold_of_operands
    (h : s.stack.values = .quotation body :: start :: .sequence items :: below) :
    fold call frame s =
      (items.foldlM (reduceStep call frame body below.length) start >>= push) (s.dropped 3) := by
  have hdrop : s.stack.values.drop 3 = below := congrArg (List.drop 3) h
  have ho := onStack_eq_ok.2 ⟨_, Stack.popSequenceStartBody_eq_ok.2 ⟨below, h, rfl⟩, rfl⟩
  rw [fold, bind_of_ok ho]
  exact bind_apply_eq (reduce_of_height (height_dropped hdrop))

theorem fold1_of_operands
    (h : s.stack.values = .quotation body :: .sequence (first :: items) :: below) :
    fold1 call frame s =
      (items.foldlM (reduceStep call frame body below.length) first >>= push) (s.dropped 2) := by
  have hdrop : s.stack.values.drop 2 = below := congrArg (List.drop 2) h
  rw [fold1, bind_of_ok (popSequenceBody_of_operands h)]
  exact bind_apply_eq (reduce_of_height (height_dropped hdrop))

variable {a : Unit}

theorem values_of_popSequenceBody
    (h : onStack Stack.popSequenceBody s = .ok (items, body) t) :
    ∃ below, s.stack.values = .quotation body :: .sequence items :: below := by
  obtain ⟨u, hu, -⟩ := onStack_eq_ok.1 h
  obtain ⟨below, hs, -⟩ := Stack.popSequenceBody_eq_ok.1 hu
  exact ⟨below, hs⟩

theorem operands_of_map (h : map call frame s = .ok a t) :
    ∃ body items below, s.stack.values = .quotation body :: .sequence items :: below := by
  obtain ⟨⟨items, body⟩, u, ho, -⟩ := bind_eq_ok.1 h
  obtain ⟨below, hs⟩ := values_of_popSequenceBody ho
  exact ⟨body, items, below, hs⟩

theorem operands_of_filter (h : filter call frame s = .ok a t) :
    ∃ body items below, s.stack.values = .quotation body :: .sequence items :: below := by
  obtain ⟨⟨items, body⟩, u, ho, -⟩ := bind_eq_ok.1 h
  obtain ⟨below, hs⟩ := values_of_popSequenceBody ho
  exact ⟨body, items, below, hs⟩

theorem operands_of_fold (h : fold call frame s = .ok a t) : ∃ body start items below,
    s.stack.values = .quotation body :: start :: .sequence items :: below := by
  obtain ⟨⟨items, start, body⟩, u, ho, -⟩ := bind_eq_ok.1 h
  obtain ⟨v, hv, -⟩ := onStack_eq_ok.1 ho
  obtain ⟨below, hs, -⟩ := Stack.popSequenceStartBody_eq_ok.1 hv
  exact ⟨body, start, items, below, hs⟩

/-- An empty sequence has no first item, so `fold1` fails on it. -/
theorem operands_of_fold1 (h : fold1 call frame s = .ok a t) : ∃ body first items below,
    s.stack.values = .quotation body :: .sequence (first :: items) :: below := by
  obtain ⟨⟨items, body⟩, u, ho, hr⟩ := bind_eq_ok.1 h
  obtain ⟨below, hs⟩ := values_of_popSequenceBody ho
  cases items with
  | nil => cases hr
  | cons first items => exact ⟨body, first, items, below, hs⟩

/-- The verdicts on the items come with the items, in their order. -/
theorem fst_of_mapM_filterStep {verdicts : List (Value × Bool)}
    (h : items.mapM (filterStep call frame body base) s = .ok verdicts t) :
    verdicts.map (·.1) = items := by
  have hf : List.Forall₂ (fun item verdict => item = verdict.1) items verdicts := by
    refine (forall₂_of_mapM h).imp ?_
    rintro item verdict ⟨u, v, hv⟩
    obtain ⟨_, _, -, hv⟩ := bind_eq_ok.1 hv
    obtain ⟨_, _, -, hv⟩ := bind_eq_ok.1 hv
    cases hv
    rfl
  rw [← List.forall₂_map_right_iff, List.forall₂_eq_eq_eq] at hf
  exact hf.symm

end Steps

/-- Invoked at `s`, the combinator comes to a call of `body` at the session `u`, where the operands
of the body lie on the lowest `base` values. -/
inductive BodyCall (call : Caller) (s : Session) :
    Primitive → List Token → Nat → Session → Prop where
  | map {body : List Token} {done left below results : List Value} {item : Value} {t : Session} :
      s.stack.values = .quotation body :: .sequence (done ++ item :: left) :: below →
      done.mapM (mapStep call Primitive.map.name body below.length) (s.dropped 2) =
        .ok results t →
      BodyCall call s .map body below.length (t.pushed item)
  | filter {body : List Token} {done left below : List Value} {verdicts : List (Value × Bool)}
      {item : Value} {t : Session} :
      s.stack.values = .quotation body :: .sequence (done ++ item :: left) :: below →
      done.mapM (filterStep call Primitive.filter.name body below.length) (s.dropped 2) =
        .ok verdicts t →
      BodyCall call s .filter body below.length (t.pushed item)
  | fold {body : List Token} {done left below : List Value} {start accumulator item : Value}
      {t : Session} :
      s.stack.values = .quotation body :: start :: .sequence (done ++ item :: left) :: below →
      done.foldlM (reduceStep call Primitive.fold.name body below.length) start (s.dropped 3) =
        .ok accumulator t →
      BodyCall call s .fold body below.length ((t.pushed accumulator).pushed item)
  | fold1 {body : List Token} {done left below : List Value} {first accumulator item : Value}
      {t : Session} :
      s.stack.values = .quotation body :: .sequence (first :: (done ++ item :: left)) :: below →
      done.foldlM (reduceStep call Primitive.fold1.name body below.length) first (s.dropped 2) =
        .ok accumulator t →
      BodyCall call s .fold1 body below.length ((t.pushed accumulator).pushed item)

section Steady
variable {call : Caller} {frame : String} {body : List Token} {s t : Session}

/-- An error that a combinator raises at a call of the body is the outcome of the combinator. -/
theorem BodyCall.error {operation : Primitive} {base : Nat} {u v : Session} {error : EvalError}
    (h : BodyCall call s operation body base u)
    (he : singleResult call operation.name body base u = .error error v) :
    invoke call operation s = .error error v := by
  cases h with
  | map hs hd =>
    rw [invoke, only]
    apply bind_of_error
    rw [map_of_operands hs]
    exact bind_of_error (mapM_append_error hd he)
  | filter hs hd =>
    rw [invoke, only]
    apply bind_of_error
    rw [filter_of_operands hs]
    apply bind_of_error
    refine mapM_append_error hd ?_
    exact (bind_of_error he :)
  | fold hs hd =>
    rw [invoke, only]
    apply bind_of_error
    rw [fold_of_operands hs]
    exact bind_of_error (foldlM_append_error hd he)
  | fold1 hs hd =>
    rw [invoke, only]
    apply bind_of_error
    rw [fold1_of_operands hs]
    exact bind_of_error (foldlM_append_error hd he)

end Steady

end Eval

end StackCalc
