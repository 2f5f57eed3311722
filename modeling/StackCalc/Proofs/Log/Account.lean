import StackCalc.Proofs.Log

/-!
What a log says about the stacks. Each invocation takes off or moves some of the topmost values, and
`arg` takes one off the stack that the innermost array scope has set aside. A mark is then the least
index that was touched, and the values below it have stayed where they were.
-/
namespace StackCalc

/-- How many of the topmost values the primitive takes off or moves before it runs any body. Copies
of values leave them alone. -/
def Primitive.taken : Primitive → Nat
  | add | subtract | multiply | divide | remainder | power | logarithm | larger | smaller
  | compare => 2
  | copy | copySecond => 0
  | swap => 2
  | drop => 1
  | rotate3 => 3
  | define | addAlias => 2
  | map | fold1 | filter | iterate => 2
  | fold | choose => 3
  | apply | length | sum | print => 1
  | draw | readNumber => 0

namespace Invocation

/-- The number of stacks below the one that was current, which tells the stacks apart. -/
def level (invocation : Invocation) : Nat :=
  invocation.session.enclosing.length

/-- The value that was moved out of the stack set aside by the innermost scope. -/
def drawn (invocation : Invocation) : Option Value :=
  match invocation.operation, invocation.session.enclosing with
  | .draw, outer :: _ => outer.top?
  | _, _ => none

/-- The least index at which a value of the stack on `level` was taken off or moved, if one was. -/
def touched (level : Nat) (invocation : Invocation) : Option Nat :=
  if invocation.level = level then
    match invocation.operation.taken with
    | 0 => none
    | taken + 1 => some (invocation.session.stack.height - (taken + 1))
  else if invocation.level = level + 1 then
    match invocation.operation, invocation.session.enclosing with
    | .draw, outer :: _ => if outer.isEmpty then none else some (outer.height - 1)
    | _, _ => none
  else none

end Invocation

/-- The values that were drawn while the scope on `level` was the innermost one, in order. -/
def drawnAt (level : Nat) (log : List Invocation) : List Value :=
  (log.filter (·.level = level)).filterMap Invocation.drawn

/-- The indices at which the stack on `level` was touched, in order. -/
def touchedAt (level : Nat) (log : List Invocation) : List Nat :=
  log.filterMap (Invocation.touched level)

theorem drawnAt_append (level : Nat) (log log' : List Invocation) :
    drawnAt level (log ++ log') = drawnAt level log ++ drawnAt level log' := by
  simp only [drawnAt, List.filter_append, List.filterMap_append]

theorem touchedAt_append (level : Nat) (log log' : List Invocation) :
    touchedAt level (log ++ log') = touchedAt level log ++ touchedAt level log' := by
  simp only [touchedAt, List.filterMap_append]

/-- Invocations in inner scopes draw from inner stacks only. -/
theorem drawnAt_of_lt {level : Nat} {log : List Invocation} (h : ∀ e ∈ log, level < e.level) :
    drawnAt level log = [] := by
  have hf : log.filter (·.level = level) = [] := by
    rw [List.filter_eq_nil_iff]
    intro e he
    have := h e he
    simp only [decide_eq_true_eq]
    omega
  rw [drawnAt, hf, List.filterMap_nil]

/-- An invocation touches the current stack and the one that the innermost scope has set aside. -/
theorem touchedAt_of_lt {level : Nat} {log : List Invocation}
    (h : ∀ e ∈ log, level + 1 < e.level) : touchedAt level log = [] := by
  rw [touchedAt, List.filterMap_eq_nil_iff]
  intro e he
  have := h e he
  rw [Invocation.touched, if_neg (by omega), if_neg (by omega)]

/-! What happened to one stack. -/

namespace Stack

/-- Between `s` and `t` the stack was touched at the given indices: the mark was lowered to the
least of them, and the values below it are the same. -/
structure Kept (touched : List Nat) (s t : Stack) : Prop where
  mark_eq : t.mark = touched.foldl min s.mark
  mark_le : t.mark ≤ t.height
  below : ∀ k ≤ t.mark, t.fromBottom.take k = s.fromBottom.take k

/-- The lowest values of a stack are those of what lies beneath its upper part. -/
theorem take_fromBottom {s : Stack} {upper below : List Value} {k : Nat}
    (hs : s.values = upper ++ below) (hk : k ≤ below.length) :
    s.fromBottom.take k = below.reverse.take k := by
  rw [fromBottom, hs, List.reverse_append,
    List.take_append_of_le_length (by rwa [List.length_reverse])]

theorem foldl_min_le (touched : List Nat) (m : Nat) : touched.foldl min m ≤ m := by
  induction touched generalizing m with
  | nil => exact Nat.le_refl m
  | cons i rest ih => exact Nat.le_trans (ih (min m i)) (Nat.min_le_left m i)

/-- The mark ends at or above `k` exactly if it was there and nothing below `k` was touched. -/
theorem le_foldl_min {touched : List Nat} {m k : Nat} :
    k ≤ touched.foldl min m ↔ k ≤ m ∧ ∀ i ∈ touched, k ≤ i := by
  induction touched generalizing m with
  | nil => simp
  | cons i rest ih =>
    rw [List.foldl_cons, ih, Nat.le_min, List.forall_mem_cons, and_assoc]

theorem min_foldl_min {touched : List Nat} {m k : Nat} (h : k ≤ m) :
    min (touched.foldl min m) k = touched.foldl min k := by
  obtain ⟨-, hm⟩ := le_foldl_min.1 (Nat.le_refl (touched.foldl min m))
  obtain ⟨-, hk⟩ := le_foldl_min.1 (Nat.le_refl (touched.foldl min k))
  have hle : touched.foldl min k ≤ k := foldl_min_le touched k
  apply Nat.le_antisymm
  · refine le_foldl_min.2 ⟨Nat.min_le_right _ _, ?_⟩
    intro i hi
    exact Nat.le_trans (Nat.min_le_left _ _) (hm i hi)
  · exact Nat.le_min.2 ⟨le_foldl_min.2 ⟨Nat.le_trans hle h, hk⟩, hle⟩

theorem Kept.refl {s : Stack} (h : s.mark ≤ s.height) : Kept [] s s :=
  ⟨rfl, h, fun _ _ => rfl⟩

theorem Kept.trans {touched touched' : List Nat} {s t u : Stack} (h : Kept touched s t)
    (h' : Kept touched' t u) : Kept (touched ++ touched') s u := by
  refine ⟨?_, h'.mark_le, ?_⟩
  · rw [h'.mark_eq, h.mark_eq, List.foldl_append]
  · intro k hk
    have hkt : k ≤ t.mark := Nat.le_trans hk (h'.mark_eq ▸ foldl_min_le touched' t.mark)
    rw [h'.below k hk, h.below k hkt]

theorem Kept.pushed {touched : List Nat} {s t : Stack} (h : Kept touched s t) (value : Value) :
    Kept touched s (t.pushed value) := by
  refine ⟨h.mark_eq, Nat.le_succ_of_le h.mark_le, ?_⟩
  intro k hk
  have hkt : k ≤ t.values.length := t.height_eq ▸ Nat.le_trans hk h.mark_le
  have hv : (t.pushed value).values = [value] ++ t.values := rfl
  rw [take_fromBottom hv hkt]
  exact h.below k hk

/-- What lies below the mark of a kept stack was the lower part of the stack before. -/
theorem Kept.drop_eq {touched : List Nat} {s t : Stack} {upper below : List Value}
    (h : Kept touched s t) (hs : s.mark ≤ s.height) (ht : t.values = upper ++ below)
    (hb : below.length ≤ t.mark) : s.values.drop (s.height - below.length) = below := by
  have hm : t.mark ≤ s.mark := h.mark_eq ▸ foldl_min_le touched s.mark
  have hl : (s.values.drop (s.height - below.length)).length = below.length := by
    rw [List.length_drop, ← s.height_eq]
    omega
  have hsb := take_fromBottom (List.take_append_drop _ s.values).symm (Nat.le_of_eq hl.symm)
  have htb := take_fromBottom ht (Nat.le_refl _)
  rw [← h.below _ hb, htb] at hsb
  rw [List.take_of_length_le (by simp), List.take_of_length_le (by simp [hl])] at hsb
  exact (List.reverse_inj.1 hsb).symm

/-- The operation takes off the topmost `count` values and does nothing else. -/
def Pops {α : Type} (count : Nat) (op : Op α) : Prop :=
  ∀ (s t : Stack) (a : α), op s = .ok a t → count ≤ s.height ∧ t.values = s.values.drop count ∧
    t.mark = if count = 0 then s.mark else min s.mark (s.height - count)

/-- The indices that are touched when the topmost `count` values are taken off or moved. -/
def topmost (count height : Nat) : List Nat :=
  if count = 0 then [] else [height - count]

/-- Values were drawn off the top of a stack, from `s` to `t`. -/
structure Drawn (values : List Value) (touched : List Nat) (s t : Stack) : Prop where
  values_eq : s.values = values ++ t.values
  mark_eq : t.mark = touched.foldl min s.mark
  mark_le : s.mark ≤ s.height → t.mark ≤ t.height

theorem Drawn.refl (s : Stack) : Drawn [] [] s s := ⟨rfl, rfl, id⟩

theorem Drawn.trans {values values' : List Value} {touched touched' : List Nat} {s t u : Stack}
    (h : Drawn values touched s t) (h' : Drawn values' touched' t u) :
    Drawn (values ++ values') (touched ++ touched') s u := by
  refine ⟨?_, ?_, fun hs => h'.mark_le (h.mark_le hs)⟩
  · rw [h.values_eq, h'.values_eq, List.append_assoc]
  · rw [h'.mark_eq, h.mark_eq, List.foldl_append]

/-- What was drawn lay above the mark, so a drawn stack is a kept one. -/
theorem Drawn.kept {values : List Value} {touched : List Nat} {s t : Stack}
    (h : Drawn values touched s t) (hs : s.mark ≤ s.height) : Kept touched s t := by
  refine ⟨h.mark_eq, h.mark_le hs, ?_⟩
  intro k hk
  have hkt : k ≤ t.values.length := t.height_eq ▸ Nat.le_trans hk (h.mark_le hs)
  rw [take_fromBottom h.values_eq hkt, fromBottom]

end Stack

/-! What happened to a session. -/

/-- Between the stacks set aside before and after, the innermost one lost what the log draws from
it, and the others are the same. -/
inductive SetAside (log : List Invocation) : List Stack → List Stack → Prop where
  | nil : SetAside log [] []
  | cons {outer outer' : Stack} {rest : List Stack} :
      Stack.Drawn (drawnAt (rest.length + 1) log) (touchedAt rest.length log) outer outer' →
        SetAside log (outer :: rest) (outer' :: rest)

theorem SetAside.refl (ss : List Stack) : SetAside [] ss ss := by
  cases ss with
  | nil => exact .nil
  | cons s ss => exact .cons (.refl s)

theorem SetAside.length_eq {log : List Invocation} {ss ts : List Stack} (h : SetAside log ss ts) :
    ts.length = ss.length := by
  cases h <;> rfl

/-- Invocations in inner scopes leave the stacks alone. -/
theorem SetAside.of_lt {log : List Invocation} {ss : List Stack}
    (h : ∀ e ∈ log, ss.length < e.level) : SetAside log ss ss := by
  cases ss with
  | nil => exact .nil
  | cons s rest =>
    have hd : drawnAt (rest.length + 1) log = [] := drawnAt_of_lt h
    have ht : touchedAt rest.length log = [] := touchedAt_of_lt h
    refine .cons ?_
    rw [hd, ht]
    exact .refl s

theorem SetAside.trans {log log' : List Invocation} {ss ts us : List Stack}
    (h : SetAside log ss ts) (h' : SetAside log' ts us) : SetAside (log ++ log') ss us := by
  cases h with
  | nil =>
    cases h'
    exact .nil
  | cons hd =>
    cases h' with
    | cons hd' =>
      refine .cons ?_
      rw [drawnAt_append, touchedAt_append]
      exact hd.trans hd'

/-- The log accounts for all that differs between two sessions but for the current stack, the
dictionary and the streams. -/
structure Accounted (s : Session) (log : List Invocation) (t : Session) : Prop where
  settings : t.settings = s.settings
  depth : t.depth = s.depth
  levels : ∀ e ∈ log, s.enclosing.length ≤ e.level
  enclosing : SetAside log s.enclosing t.enclosing

theorem Accounted.of_eq {s t : Session} (hs : t.settings = s.settings) (hd : t.depth = s.depth)
    (he : t.enclosing = s.enclosing) : Accounted s [] t :=
  ⟨hs, hd, fun _ he => absurd he List.not_mem_nil, he ▸ SetAside.refl _⟩

theorem Accounted.refl (s : Session) : Accounted s [] s :=
  .of_eq rfl rfl rfl

theorem Accounted.trans {s t u : Session} {log log' : List Invocation} (h : Accounted s log t)
    (h' : Accounted t log' u) : Accounted s (log ++ log') u := by
  refine ⟨h'.settings.trans h.settings, h'.depth.trans h.depth, ?_, h.enclosing.trans h'.enclosing⟩
  intro e he
  rcases List.mem_append.1 he with he | he
  · exact h.levels e he
  · exact h.enclosing.length_eq ▸ h'.levels e he

end StackCalc
