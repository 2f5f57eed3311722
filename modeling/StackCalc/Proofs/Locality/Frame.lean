import StackCalc.Proofs.Locality.Evaluation

/-!
Stack locality: values inserted beneath the current stack change nothing, unless an evaluation fails
for want of values.
-/
namespace StackCalc

/-- The stack with `below` inserted beneath its bottom, and with a mark of its own. -/
def Stack.raised (s : Stack) (below : List Value) (mark : Nat) : Stack where
  values := s.values ++ below
  height := s.height + below.length
  mark := mark
  height_eq := by rw [List.length_append, s.height_eq]

namespace Footing

/-- No footing at all. -/
def none : Footing := ⟨[], [], True⟩

theorem not_dug_none {ss ts : List Stack} : ¬ Dug (ss.map fun _ => none) ts := by
  intro h
  induction ss generalizing ts with
  | nil => cases h
  | cons s ss ih =>
    cases h with
    | here hh => exact Nat.not_lt_zero _ hh
    | there h => exact ih h

theorem bearsAll_none_refl (ss : List Stack) : BearsAll (ss.map fun _ => none) ss ss := by
  induction ss with
  | nil => exact .nil
  | cons s ss ih =>
    have hv := (List.append_nil s.values).symm
    exact .cons ⟨⟨s.values, hv, hv⟩, fun _ => rfl⟩ ih

theorem eq_of_bearsAll_none {ss ts ts' : List Stack} (h : BearsAll (ss.map fun _ => none) ts ts') :
    ts' = ts := by
  induction ss generalizing ts ts' with
  | nil => cases h; rfl
  | cons s ss ih =>
    cases h with
    | cons hb hr =>
      obtain ⟨upper, hv, hv'⟩ := hb.values
      rw [ih hr, Stack.ext (hv'.trans hv.symm) (hb.mark trivial).symm]

end Footing

/-- The world in which the second session has `below` beneath its stack. -/
def World.above (s : Session) (below : List Value) (mark : Nat) : World where
  below := below
  marked := mark = s.stack.mark + below.length
  outer := s.enclosing.map fun _ => Footing.none
  firstOutput := s.output
  secondOutput := s.output
  outputs := .refl s.output

theorem alike_raised (s : Session) (below : List Value) (mark : Nat) :
    Alike (.above s below mark) s { s with stack := s.stack.raised below mark } where
  settings := rfl
  dictionary := rfl
  depth := rfl
  input := rfl
  output := ⟨[], (Output.after_nil _).symm, (Output.after_nil _).symm⟩
  stack := World.bears_of rfl id
  enclosing := Footing.bearsAll_none_refl s.enclosing

/-- The second of two sessions in that world is the first with `below` inserted. -/
theorem eq_raised_of_alike {s t t' : Session} {below : List Value} {mark : Nat}
    (h : Alike (.above s below mark) t t') :
    t' = { t with stack := t.stack.raised below t'.stack.mark } := by
  obtain ⟨content, ho, ho'⟩ := h.output
  have hstack : t'.stack = t.stack.raised below t'.stack.mark :=
    Stack.ext h.stack.values_eq rfl
  obtain ⟨settings, dictionary, stack, enclosing, depth, input, output⟩ := t
  obtain ⟨settings', dictionary', stack', enclosing', depth', input', output'⟩ := t'
  obtain ⟨rfl, rfl, rfl, rfl, -, -, he⟩ := h
  have he := Footing.eq_of_bearsAll_none he
  simp only at ho ho' hstack he
  rw [ho, ho', he, ← hstack]
  rfl

/-- Whatever lies beneath the stack, a successful evaluation succeeds in the same way on top of it,
and an error other than an underflow is the same error. What is beneath stays in place, and all else
in the session is as without it. The mark, too, is moved by the inserted values if it was at the
start. -/
theorem evaluate_raised (s : Session) (tokens : List Token) (below : List Value) (mark : Nat) :
    match Eval.evaluate tokens s with
    | .ok () t => ∃ mark', Eval.evaluate tokens { s with stack := s.stack.raised below mark } =
          .ok () { t with stack := t.stack.raised below mark' } ∧
        (mark = s.stack.mark + below.length → mark' = t.stack.mark + below.length)
    | .error error t => error.kind.IsUnderflow ∨
        ∃ mark', Eval.evaluate tokens { s with stack := s.stack.raised below mark } =
          .error error { t with stack := t.stack.raised below mark' } ∧
        (mark = s.stack.mark + below.length → mark' = t.stack.mark + below.length) := by
  have ha := (Parallel.evaluate tokens).agree (alike_raised s below mark)
  generalize Eval.evaluate tokens s = r at ha
  generalize Eval.evaluate tokens { s with stack := s.stack.raised below mark } = r' at ha
  cases ha with
  | @ok _ t t' ht =>
    refine ⟨t'.stack.mark, ?_, ht.stack.mark_eq⟩
    rw [← eq_raised_of_alike ht]
  | @error error t t' ht =>
    refine .inr ⟨t'.stack.mark, ?_, ht.stack.mark_eq⟩
    rw [← eq_raised_of_alike ht]
  | short _ hk => exact .inl hk
  | dug hd => exact absurd hd Footing.not_dug_none

end StackCalc
