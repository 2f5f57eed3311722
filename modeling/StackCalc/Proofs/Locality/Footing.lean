import Mathlib.Data.List.Forall2
import StackCalc.Proofs.Output

/-!
Pairs of sessions that are the same but for what their stacks rest on. The two footings of a stack
may differ, and so may the place of its mark and the bytes that were written before; all else is one
and the same. An evaluation that stays above the footings cannot tell the sessions apart.
-/
namespace StackCalc

/-- What two stacks rest on that are the same above it. -/
structure Footing where
  first : List Value
  second : List Value
  /-- Whether the marks lie at the same place, as seen from the footings. -/
  marked : Prop

/-- The stacks are the same above the footing. -/
structure Footing.Bears (f : Footing) (s s' : Stack) : Prop where
  values : ∃ upper, s.values = upper ++ f.first ∧ s'.values = upper ++ f.second
  mark : f.marked → s.mark + f.second.length = s'.mark + f.first.length

/-- Stack by stack, the stacks are the same above their footings. -/
inductive Footing.BearsAll : List Footing → List Stack → List Stack → Prop where
  | nil : BearsAll [] [] []
  | cons {f : Footing} {fs : List Footing} {s s' : Stack} {ss ss' : List Stack} :
      f.Bears s s' → BearsAll fs ss ss' → BearsAll (f :: fs) (s :: ss) (s' :: ss')

/-- Some stack of the first list has been cut into its footing. -/
inductive Footing.Dug : List Footing → List Stack → Prop where
  | here {f : Footing} {fs : List Footing} {s : Stack} {ss : List Stack} :
      s.height < f.first.length → Dug (f :: fs) (s :: ss)
  | there {f : Footing} {fs : List Footing} {s : Stack} {ss : List Stack} :
      Dug fs ss → Dug (f :: fs) (s :: ss)

/-- The same number of stacks, none of them higher than before. -/
abbrev Sunk : List Stack → List Stack → Prop :=
  List.Forall₂ fun before after => after.height ≤ before.height

theorem Sunk.refl (ss : List Stack) : Sunk ss ss :=
  List.forall₂_same.2 fun _ _ => Nat.le_refl _

theorem Sunk.trans {ss ts us : List Stack} (h : Sunk ss ts) (h' : Sunk ts us) : Sunk ss us := by
  induction h generalizing us with
  | nil => exact h'
  | cons hs _ ih =>
    cases h' with
    | cons ht hu => exact .cons (Nat.le_trans ht hs) (ih hu)

theorem Sunk.tail {s : Stack} {ss ts : List Stack} (h : Sunk (s :: ss) ts) : Sunk ss ts.tail := by
  cases h with
  | cons _ ht => exact ht

/-- A stack that was cut into its footing is never built up again from outside its scope. -/
theorem Footing.Dug.sunk {fs : List Footing} {ss ts : List Stack} (h : Dug fs ss)
    (hs : Sunk ss ts) : Dug fs ts := by
  induction h generalizing ts with
  | here hf =>
    cases hs with
    | cons ht _ => exact .here (Nat.lt_of_le_of_lt ht hf)
  | there _ ih =>
    cases hs with
    | cons _ hu => exact .there (ih hu)

/-- A value is taken off both stacks above the footing, or the first one loses a value of its own
footing, or it has none left. -/
theorem Footing.Bears.pop {f : Footing} {s s' : Stack} (h : f.Bears s s') :
    (∃ value t t', Stack.pop s = .ok value t ∧ Stack.pop s' = .ok value t' ∧ f.Bears t t') ∨
      (∃ value t, Stack.pop s = .ok value t ∧ t.height < f.first.length) ∨
      (s.values = [] ∧ f.first = [] ∧ (f.second = [] → s'.values = [])) := by
  obtain ⟨upper, hv, hv'⟩ := h.values
  cases upper with
  | cons value rest =>
    obtain ⟨t, hp, ht, hm⟩ := Stack.pop_of_cons hv
    obtain ⟨t', hp', ht', hm'⟩ := Stack.pop_of_cons hv'
    refine .inl ⟨value, t, t', hp, hp', ⟨rest, ht, ht'⟩, fun hf => ?_⟩
    have hmark := h.mark hf
    simp only [List.append_eq, List.length_append] at hm hm'
    omega
  | nil =>
    cases hf : f.first with
    | cons value rest =>
      obtain ⟨t, hp, ht, -⟩ := Stack.pop_of_cons (hv.trans hf)
      refine .inr (.inl ⟨value, t, hp, ?_⟩)
      rw [t.height_eq, ht, List.length_cons]
      omega
    | nil => exact .inr (.inr ⟨hv.trans hf, rfl, fun hs => hv'.trans hs⟩)

/-- How two runs of one evaluation may differ. The current stack of the first one rests on nothing;
that of the second one may rest on more values. -/
structure World where
  below : List Value
  marked : Prop
  outer : List Footing
  firstOutput : Output
  secondOutput : Output
  outputs : firstOutput.Alike secondOutput

namespace World

instance : Inhabited World := ⟨⟨[], True, [], {}, {}, .refl {}⟩⟩

/-- The footing of the current stack. -/
def current (w : World) : Footing := ⟨[], w.below, w.marked⟩

/-- No value is beneath one stack that is not beneath the other. -/
def Even (w : World) : Prop :=
  w.below = [] ∧ ∀ f ∈ w.outer, f.second = f.first

/-- The world inside an array scope, whose stack is empty in both runs. -/
def inScope (w : World) : World :=
  { w with below := [], marked := True, outer := w.current :: w.outer }

/-- The world under a watch, which sets both marks to the tops of the stacks. -/
def watched (w : World) : World :=
  { w with marked := True }

/-- The empty stack of an array scope cannot be cut further, so it is one of the others. -/
theorem dug_tail {w : World} {ss : List Stack} (h : Footing.Dug w.inScope.outer ss) :
    Footing.Dug w.outer ss.tail := by
  cases h with
  | here hh => exact absurd hh (Nat.not_lt_zero _)
  | there h => exact h

theorem even_of_inScope {w : World} (h : ¬ w.inScope.Even) : ¬ w.Even := by
  rintro ⟨hb, ho⟩
  refine h ⟨rfl, ?_⟩
  intro f hf
  rcases List.mem_cons.1 hf with rfl | hf
  · exact hb
  · exact ho f hf

end World

/-- The sessions differ in the ways of the world only. -/
structure Alike (w : World) (s s' : Session) : Prop where
  settings : s'.settings = s.settings
  dictionary : s'.dictionary = s.dictionary
  depth : s'.depth = s.depth
  input : s'.input = s.input
  output : ∃ content, s.output = w.firstOutput.after content ∧
    s'.output = w.secondOutput.after content
  stack : w.current.Bears s.stack s'.stack
  enclosing : Footing.BearsAll w.outer s.enclosing s'.enclosing

section Current
variable {w : World} {s s' : Stack}

theorem Footing.Bears.values_eq (h : w.current.Bears s s') : s'.values = s.values ++ w.below := by
  obtain ⟨upper, hv, hv'⟩ := h.values
  rw [World.current, List.append_nil] at hv
  rw [hv', hv, World.current]

theorem Footing.Bears.height_eq (h : w.current.Bears s s') :
    s'.height = s.height + w.below.length := by
  rw [s'.height_eq, s.height_eq, h.values_eq, List.length_append]

theorem Footing.Bears.mark_eq (h : w.current.Bears s s') (hm : w.marked) :
    s'.mark = s.mark + w.below.length := by
  simpa [World.current] using (h.mark hm).symm

theorem World.bears_of (hv : s'.values = s.values ++ w.below)
    (hm : w.marked → s'.mark = s.mark + w.below.length) : w.current.Bears s s' := by
  refine ⟨⟨s.values, (List.append_nil _).symm, hv⟩, ?_⟩
  intro h
  simp [World.current, hm h]

theorem Footing.Bears.pushed (h : w.current.Bears s s') (value : Value) :
    w.current.Bears (s.pushed value) (s'.pushed value) :=
  World.bears_of (by simp [Stack.pushed, h.values_eq]) fun hm => h.mark_eq hm

end Current

namespace Alike
variable {w : World} {s s' : Session} {t t' : Stack}

theorem withStack (h : Alike w s s') (ht : w.current.Bears t t') :
    Alike w { s with stack := t } { s' with stack := t' } :=
  { h with stack := ht }

/-- An array scope opens on empty stacks, and the stacks that it sets aside keep their footing. -/
theorem scopeEntered (h : Alike w s s') :
    Alike w.inScope (Eval.scopeEntered s) (Eval.scopeEntered s') :=
  { h with
    stack := World.bears_of rfl fun _ => rfl
    enclosing := .cons h.stack h.enclosing }

/-- An array scope ends, and its footing is that of the stack that was set aside. -/
theorem scopeLeft (h : Alike w.inScope s s') :
    Alike w (Eval.scopeLeft s) (Eval.scopeLeft s') := by
  obtain ⟨hset, hd, hdep, hi, ho, -, he⟩ := h
  simp only [Eval.scopeLeft]
  generalize s.enclosing = ss at he
  generalize s'.enclosing = ss' at he
  cases he with
  | cons hb hr => exact ⟨hset, hd, hdep, hi, ho, hb, hr⟩

theorem watchEntered (h : Alike w s s') :
    Alike w.watched (Eval.watchEntered s) (Eval.watchEntered s') :=
  { h with
    stack := World.bears_of h.stack.values_eq fun _ => h.stack.height_eq }

end Alike

end StackCalc
