import StackCalc.Proofs.Simulation.Sessions

/-!
Operations on corresponding stacks. They find the same numbers of values and values of the same
kinds, so they succeed or fail alike.
-/
namespace StackCalc

variable {T : Token → Token → Prop}

namespace Value

theorem Corresponds.typeName_eq {v v' : Value} (h : v.Corresponds T v') :
    v'.typeName = v.typeName := by
  cases h <;> rfl

theorem Corresponds.number?_eq {v v' : Value} (h : v.Corresponds T v') :
    v'.number? = v.number? := by
  cases h <;> rfl

theorem Corresponds.isTrue_eq {v v' : Value} (h : v.Corresponds T v') :
    v'.isTrue = v.isTrue := by
  cases h <;> rfl

theorem corresponds_refl (hT : ∀ t, T t t) (v : Value) : v.Corresponds T v := by
  induction v using Value.induction with
  | number x => exact .number x
  | sequence items ih => exact .sequence (List.forall₂_same.2 ih)
  | quotation body => exact .quotation (List.forall₂_same.2 fun t _ => hT t)
  | reference name => exact .reference name

end Value

namespace Stack
variable {s s' : Stack} {v v' : Value}

theorem corresponds_refl (hT : ∀ t, T t t) (s : Stack) : s.Corresponds T s :=
  ⟨List.forall₂_same.2 fun v _ => v.corresponds_refl hT, rfl⟩

theorem corresponds_empty : empty.Corresponds T empty :=
  ⟨.nil, rfl⟩

theorem Corresponds.height_eq (h : s.Corresponds T s') : s'.height = s.height := by
  rw [s'.height_eq, s.height_eq, h.values.length_eq]

theorem Corresponds.fromBottom (h : s.Corresponds T s') :
    List.Forall₂ (Value.Corresponds T) s.fromBottom s'.fromBottom :=
  List.rel_reverse h.values

theorem Corresponds.pushed (h : s.Corresponds T s') (hv : v.Corresponds T v') :
    (s.pushed v).Corresponds T (s'.pushed v') :=
  ⟨.cons hv h.values, h.mark⟩

theorem Corresponds.watched (h : s.Corresponds T s') : s.watched.Corresponds T s'.watched :=
  ⟨h.values, h.height_eq⟩

theorem forall₂_bringToFront {R : Value → Value → Prop} {values values' : List Value}
    (h : List.Forall₂ R values values') (places : Nat) :
    List.Forall₂ R (bringToFront places values) (bringToFront places values') := by
  have hl := h.length_eq
  by_cases hp : places < values.length
  · have hp' : places < values'.length := by omega
    simp only [bringToFront, List.getElem?_eq_getElem hp, List.getElem?_eq_getElem hp',
      List.eraseIdx_eq_take_drop_succ]
    exact .cons (h.get hp hp') (List.rel_append (List.forall₂_take _ h) (List.forall₂_drop _ h))
  · have hp' : ¬ places < values'.length := by omega
    rw [bringToFront, List.getElem?_eq_none (by omega), bringToFront,
      List.getElem?_eq_none (by omega)]
    exact h

end Stack

/-- How the results of an operation on corresponding stacks agree. -/
inductive OpMatches (T : Token → Token → Prop) {α β : Type} (Q : α → β → Prop) :
    EStateM.Result ErrorKind Stack α → EStateM.Result ErrorKind Stack β → Prop where
  | ok {a : α} {b : β} {s s' : Stack} :
      Q a b → s.Corresponds T s' → OpMatches T Q (.ok a s) (.ok b s')
  | error {kind : ErrorKind} {s s' : Stack} :
      s.Corresponds T s' → OpMatches T Q (.error kind s) (.error kind s')

/-- An operation that treats corresponding stacks alike. -/
def OpSimulates (T : Token → Token → Prop) {α β : Type} (Q : α → β → Prop) (op : Stack.Op α)
    (op' : Stack.Op β) : Prop :=
  ∀ s s' : Stack, s.Corresponds T s' → OpMatches T Q (op s) (op' s')

namespace OpSimulates
variable {α α' β β' : Type} {Q : α → α' → Prop} {P : β → β' → Prop}

theorem pure {a : α} {a' : α'} (h : Q a a') : OpSimulates T Q (Pure.pure a) (Pure.pure a') :=
  fun _ _ hs => .ok h hs

theorem throw (kind : ErrorKind) :
    OpSimulates T Q (MonadExcept.throw kind) (MonadExcept.throw kind) :=
  fun _ _ hs => .error hs

theorem bind {op : Stack.Op α} {op' : Stack.Op α'} {next : α → Stack.Op β}
    {next' : α' → Stack.Op β'} (ho : OpSimulates T Q op op')
    (hn : ∀ a a', Q a a' → OpSimulates T P (next a) (next' a')) :
    OpSimulates T P (op >>= next) (op' >>= next') := by
  intro s s' hs
  have hm := ho s s' hs
  cases hr : op s with
  | ok a t =>
    rw [hr] at hm
    rw [bind_of_ok hr]
    generalize hr' : op' s' = r' at hm
    cases hm with
    | ok ha ht =>
      rw [bind_of_ok hr']
      exact hn _ _ ha _ _ ht
  | error kind t =>
    rw [hr] at hm
    rw [bind_of_error hr]
    generalize hr' : op' s' = r' at hm
    cases hm with
    | error ht =>
      rw [bind_of_error hr']
      exact .error ht

theorem require (needed : Nat) :
    OpSimulates T Eq (Stack.require needed) (Stack.require needed) := by
  intro s s' h
  rw [Stack.require, Stack.require, h.height_eq]
  split
  · exact .error h
  · exact .ok rfl h

theorem pop : OpSimulates T (Value.Corresponds T) Stack.pop Stack.pop := by
  intro s s' h
  cases hv : s.values with
  | nil =>
    have hv' : s'.values = [] := List.forall₂_nil_left_iff.1 (hv ▸ h.values)
    rw [Stack.pop_of_nil hv, Stack.pop_of_nil hv']
    exact .error h
  | cons value rest =>
    obtain ⟨value', rest', hvalue, hrest, hv'⟩ := List.forall₂_cons_left_iff.1 (hv ▸ h.values)
    obtain ⟨t, hp, ht, hm⟩ := Stack.pop_of_cons hv
    obtain ⟨t', hp', ht', hm'⟩ := Stack.pop_of_cons hv'
    rw [hp, hp']
    refine .ok hvalue ⟨?_, ?_⟩
    · rwa [ht, ht']
    · rw [hm, hm', h.mark, hrest.length_eq]

theorem copyFromTop (places : Nat) :
    OpSimulates T Eq (Stack.copyFromTop places) (Stack.copyFromTop places) := by
  intro s s' h
  have hl := h.values.length_eq
  by_cases hp : places < s.values.length
  · have hp' : places < s'.values.length := by omega
    rw [Stack.copyFromTop_of_lt hp, Stack.copyFromTop_of_lt hp']
    exact .ok rfl (h.pushed (h.values.get hp hp'))
  · have hs : s.height < places + 1 := by
      rw [s.height_eq]
      omega
    rw [Stack.copyFromTop_of_short hs, Stack.copyFromTop_of_short (h.height_eq ▸ hs), h.height_eq]
    exact .error h

theorem rotate (count : Nat) : OpSimulates T Eq (Stack.rotate count) (Stack.rotate count) := by
  intro s s' h
  have hh := h.height_eq
  by_cases hn : s.height < count
  · rw [Stack.rotate, if_pos hn, Stack.rotate, if_pos (by omega), hh]
    exact .error h
  · rw [Stack.rotate, if_neg hn, Stack.rotate, if_neg (by omega)]
    refine .ok rfl ⟨Stack.forall₂_bringToFront h.values _, ?_⟩
    simp only [h.mark, hh]

/-! Operands, taken off by kind. -/

theorem mismatch {v v' : Value} (h : v.Corresponds T v') (expected : String) :
    OpSimulates T Q (Stack.mismatch expected v) (Stack.mismatch expected v') := by
  rw [Stack.mismatch, Stack.mismatch, h.typeName_eq]
  exact throw _

theorem popNumber : OpSimulates T Eq Stack.popNumber Stack.popNumber := by
  refine bind pop fun v v' h => ?_
  cases h with
  | number x => exact pure rfl
  | sequence hi => exact mismatch (.sequence hi) _
  | quotation hb => exact mismatch (.quotation hb) _
  | reference name => exact mismatch (.reference name) _

theorem popSequence :
    OpSimulates T (List.Forall₂ (Value.Corresponds T)) Stack.popSequence Stack.popSequence := by
  refine bind pop fun v v' h => ?_
  cases h with
  | number x => exact mismatch (.number x) _
  | sequence hi => exact pure hi
  | quotation hb => exact mismatch (.quotation hb) _
  | reference name => exact mismatch (.reference name) _

theorem popQuotation :
    OpSimulates T (List.Forall₂ T) Stack.popQuotation Stack.popQuotation := by
  refine bind pop fun v v' h => ?_
  cases h with
  | number x => exact mismatch (.number x) _
  | sequence hi => exact mismatch (.sequence hi) _
  | quotation hb => exact pure hb
  | reference name => exact mismatch (.reference name) _

theorem popReference : OpSimulates T Eq Stack.popReference Stack.popReference := by
  refine bind pop fun v v' h => ?_
  cases h with
  | number x => exact mismatch (.number x) _
  | sequence hi => exact mismatch (.sequence hi) _
  | quotation hb => exact mismatch (.quotation hb) _
  | reference name => exact pure rfl

theorem popNumbers : OpSimulates T Eq Stack.popNumbers Stack.popNumbers := by
  refine bind (require 2) fun _ _ _ => bind popNumber fun b b' hb =>
    bind popNumber fun a a' ha => ?_
  subst ha hb
  exact pure rfl

theorem popCount : OpSimulates T Eq Stack.popCount Stack.popCount := by
  refine bind popNumber fun value value' h => ?_
  subst h
  cases Arithmetic.count? value with
  | some count => exact pure rfl
  | none => exact throw _

theorem popSequenceBody :
    OpSimulates T (fun operands operands' =>
        List.Forall₂ (Value.Corresponds T) operands.1 operands'.1 ∧
          List.Forall₂ T operands.2 operands'.2)
      Stack.popSequenceBody Stack.popSequenceBody :=
  bind (require 2) fun _ _ _ => bind popQuotation fun _ _ hb => bind popSequence fun _ _ hi =>
    pure ⟨hi, hb⟩

theorem popSequenceStartBody :
    OpSimulates T (fun operands operands' =>
        List.Forall₂ (Value.Corresponds T) operands.1 operands'.1 ∧
          operands.2.1.Corresponds T operands'.2.1 ∧ List.Forall₂ T operands.2.2 operands'.2.2)
      Stack.popSequenceStartBody Stack.popSequenceStartBody :=
  bind (require 3) fun _ _ _ => bind popQuotation fun _ _ hb => bind pop fun _ _ hv =>
    bind popSequence fun _ _ hi => pure ⟨hi, hv, hb⟩

end OpSimulates

end StackCalc
