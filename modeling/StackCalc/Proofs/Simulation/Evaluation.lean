import StackCalc.Proofs.Simulation.Words

/-!
Evaluations of related sessions match: loops, array scopes and combinators do, whatever bodies they
run, and so does the evaluator by induction on the room that is left in the first session.
-/
namespace StackCalc

open Eval

/-- Two splits of tokens of which both parts correspond. -/
def Token.SplitRel (T : Token → Token → Prop) (parts parts' : List Token × List Token) : Prop :=
  List.Forall₂ T parts.1 parts'.1 ∧ List.Forall₂ T parts.2 parts'.2

/-- The split at a closing bracket depends on the kinds of tokens alone. -/
theorem Token.splitAtCloser_rel {T : Token → Token → Prop}
    (hT : ∀ {t t'}, T t t' → t'.kind = t.kind) {tokens tokens' : List Token}
    (h : List.Forall₂ T tokens tokens') (depth : Nat) :
    Option.Rel (SplitRel T) (splitAtCloser depth tokens) (splitAtCloser depth tokens') := by
  induction h generalizing depth with
  | nil => exact .none
  | @cons token token' rest rest' ht hr ih =>
    -- a token in front of the split is in front of the first part
    have hcons (depth : Nat) : Option.Rel (SplitRel T)
        ((splitAtCloser depth rest).map fun parts => (token :: parts.1, parts.2))
        ((splitAtCloser depth rest').map fun parts => (token' :: parts.1, parts.2)) := by
      have hrest := ih depth
      generalize splitAtCloser depth rest = r at hrest
      generalize splitAtCloser depth rest' = r' at hrest
      cases hrest with
      | none => exact .none
      | some hp => exact .some ⟨.cons ht hp.1, hp.2⟩
    unfold splitAtCloser
    rw [hT ht]
    split
    · exact hcons (depth + 1)
    · cases depth with
      | zero => exact .some ⟨.nil, hr⟩
      | succ outer => exact hcons outer
    · exact hcons depth

namespace Simulation
variable {m : Simulation} {α α' β β' : Type} {Q : α → α' → Prop} {P : β → β' → Prop}

theorem Related.scopeLeft {s s' : Session} (h : m.Related s s') :
    m.Related (Eval.scopeLeft s) (Eval.scopeLeft s') := by
  have he := h.enclosing
  rw [Eval.scopeLeft, Eval.scopeLeft]
  generalize s.enclosing = ss at he
  generalize s'.enclosing = ss' at he
  cases he with
  | nil => exact { h with stack := Stack.corresponds_empty, enclosing := .nil }
  | cons ho hr => exact { h with stack := ho, enclosing := hr }

namespace Simulates

/-! Sequences of bodies. -/

section Loops
variable {ι ι' : Type} {I : ι → ι' → Prop}

theorem mapM {f : ι → Eval β} {f' : ι' → Eval β'}
    (hf : ∀ i i', I i i' → m.Simulates P (f i) (f' i')) {items : List ι} {items' : List ι'}
    (h : List.Forall₂ I items items') :
    m.Simulates (List.Forall₂ P) (items.mapM f) (items'.mapM f') := by
  induction h with
  | nil =>
    rw [List.mapM_nil, List.mapM_nil]
    exact pure .nil
  | cons hi _ ih =>
    rw [List.mapM_cons, List.mapM_cons]
    exact bind (hf _ _ hi) fun _ _ hb => bind ih fun _ _ hbs => pure (.cons hb hbs)

theorem foldlM {f : β → ι → Eval β} {f' : β' → ι' → Eval β'}
    (hf : ∀ b b', P b b' → ∀ i i', I i i' → m.Simulates P (f b i) (f' b' i')) {items : List ι}
    {items' : List ι'} (h : List.Forall₂ I items items') {b : β} {b' : β'} (hb : P b b') :
    m.Simulates P (items.foldlM f b) (items'.foldlM f' b') := by
  induction h generalizing b b' with
  | nil => exact pure hb
  | cons hi _ ih =>
    rw [List.foldlM_cons, List.foldlM_cons]
    exact bind (hf _ _ hb _ _ hi) fun _ _ hc => ih hc

theorem times {act act' : Eval Unit} (h : m.Simulates Eq act act') (count : Nat) :
    m.Simulates Eq (Eval.times act count) (Eval.times act' count) := by
  induction count with
  | zero => exact pure rfl
  | succ count ih => exact bind h fun _ _ _ => ih

end Loops

theorem only {act act' : Eval Unit} (h : m.Simulates Eq act act') :
    m.Simulates Eq (Eval.only act) (Eval.only act') :=
  bind h fun _ _ _ => pure rfl

/-! Changes of scope. -/

theorem height : m.Simulates Eq Eval.height Eval.height :=
  fun _ _ h => .ok h.stack.height_eq.symm h

theorem watching {act act' : Eval Unit} (ha : m.Simulates Eq act act') :
    m.Simulates Eq (Eval.watching act) (Eval.watching act') := by
  intro s s' h
  have hm := ha (watchEntered s) (watchEntered s') { h with stack := h.stack.watched }
  have hleft {t t' : Session} (ht : m.Related t t') :
      m.Related (watchLeft s.stack.mark t) (watchLeft s'.stack.mark t') := by
    refine { ht with stack := ⟨ht.stack.values, ?_⟩ }
    simp only [watchLeft, Stack.unwatched, h.stack.mark, ht.stack.mark]
  rw [Eval.watching, Eval.watching]
  generalize act (watchEntered s) = r at hm
  generalize act' (watchEntered s') = r' at hm
  cases hm with
  | ok _ ht => exact .ok ht.stack.mark.symm (hleft ht)
  | error he ht => exact .error he (hleft ht)
  | excused hx => exact .excused hx

theorem inFrame (name : String) {act act' : Eval Unit} (ha : m.Simulates Eq act act') :
    m.Simulates Eq (Eval.inFrame name act) (Eval.inFrame name act') := by
  intro s s' h
  have hm := ha { s with depth := s.depth + 1 } { s' with depth := s'.depth + 1 } { h with }
  rw [Eval.inFrame, Eval.inFrame]
  generalize act { s with depth := s.depth + 1 } = r at hm
  generalize act' { s' with depth := s'.depth + 1 } = r' at hm
  cases hm with
  | ok _ ht => exact .ok rfl { ht with }
  | error he ht =>
    refine .error ⟨he.kind, he.word, ?_⟩ { ht with }
    simp only [EvalError.inFrame, he.trace]
  | excused hx => exact .excused hx

theorem arrayScope {body body' : Eval Unit} (hb : m.Simulates Eq body body') :
    m.Simulates Eq (Eval.arrayScope body) (Eval.arrayScope body') := by
  intro s s' h
  have hm := hb (scopeEntered s) (scopeEntered s')
    { h with stack := Stack.corresponds_empty, enclosing := .cons h.stack h.enclosing }
  rw [Eval.arrayScope, Eval.arrayScope]
  generalize body (scopeEntered s) = r at hm
  generalize body' (scopeEntered s') = r' at hm
  cases hm with
  | ok _ ht => exact push (.sequence ht.stack.fromBottom) _ _ ht.scopeLeft
  | error he ht => exact .error he ht.scopeLeft
  | excused hx => exact .excused hx

theorem enclosed (bracket : Bracket) {body body' : List Token}
    (hb : List.Forall₂ m.token body body') {runBody runBody' : Eval Unit}
    (hr : m.Simulates Eq runBody runBody') :
    m.Simulates Eq (Eval.enclosed bracket body runBody)
      (Eval.enclosed bracket body' runBody') := by
  cases bracket with
  | brace => exact push (.quotation hb)
  | square => exact arrayScope hr

/-! Combinators. -/

section Combinators
variable {call call' : Caller} {frame : String} {body body' : List Token}

theorem singleResult (hc : m.Simulates Eq (call frame body) (call' frame body')) (base : Nat) :
    m.Simulates (Value.Corresponds m.token) (Eval.singleResult call frame body base)
      (Eval.singleResult call' frame body' base) := by
  refine bind (watching hc) fun low _ hl => bind height fun left _ hh => ?_
  subst hl hh
  split
  · exact fail _
  · exact onStack .pop

variable (hc : ∀ frame body body', List.Forall₂ m.token body body' →
  m.Simulates Eq (call frame body) (call' frame body'))
include hc

theorem map : m.Simulates Eq (Eval.map call frame) (Eval.map call' frame) := by
  refine bind (onStack .popSequenceBody) ?_
  rintro ⟨items, body⟩ ⟨items', body'⟩ ⟨hi, hb⟩
  refine bind height fun base _ hbase => ?_
  subst hbase
  refine bind (mapM (fun item item' hv => ?_) hi) fun _ _ hr => push (.sequence hr)
  exact bind (push hv) fun _ _ _ => singleResult (hc _ _ _ hb) base

theorem reduce (hb : List.Forall₂ m.token body body') {first first' : Value}
    (hf : first.Corresponds m.token first') {items items' : List Value}
    (hi : List.Forall₂ (Value.Corresponds m.token) items items') :
    m.Simulates (Value.Corresponds m.token) (Eval.reduce call frame body first items)
      (Eval.reduce call' frame body' first' items') := by
  refine bind height fun base _ hbase => ?_
  subst hbase
  refine foldlM (fun accumulator accumulator' ha item item' hv => ?_) hi hf
  exact bind (push ha) fun _ _ _ => bind (push hv) fun _ _ _ => singleResult (hc _ _ _ hb) base

theorem fold : m.Simulates Eq (Eval.fold call frame) (Eval.fold call' frame) := by
  refine bind (onStack .popSequenceStartBody) ?_
  rintro ⟨items, start, body⟩ ⟨items', start', body'⟩ ⟨hi, hs, hb⟩
  exact bind (reduce hc hb hs hi) fun _ _ hv => push hv

theorem fold1 : m.Simulates Eq (Eval.fold1 call frame) (Eval.fold1 call' frame) := by
  refine bind (onStack .popSequenceBody) ?_
  rintro ⟨items, body⟩ ⟨items', body'⟩ ⟨hi, hb⟩
  cases hi with
  | nil => exact fail _
  | cons hf hr => exact bind (reduce hc hb hf hr) fun _ _ hv => push hv

/-- The items that are kept are those with the same verdict in both runs. -/
theorem filter : m.Simulates Eq (Eval.filter call frame) (Eval.filter call' frame) := by
  refine bind (onStack .popSequenceBody) ?_
  rintro ⟨items, body⟩ ⟨items', body'⟩ ⟨hi, hb⟩
  refine bind height fun base _ hbase => ?_
  subst hbase
  refine bind (P := Eq) (mapM (P := fun verdict verdict' =>
    verdict.1.Corresponds m.token verdict'.1 ∧ verdict'.2 = verdict.2)
    (fun item item' hv => ?_) hi) fun verdicts verdicts' hvs => push (.sequence ?_)
  · exact bind (push hv) fun _ _ _ => bind (singleResult (hc _ _ _ hb) base) fun _ _ hr =>
      pure ⟨hv, hr.isTrue_eq⟩
  · induction hvs with
    | nil => exact .nil
    | @cons verdict verdict' _ _ hv _ ih =>
      rw [List.filter_cons, List.filter_cons, hv.2]
      split
      · exact .cons hv.1 ih
      · exact ih

theorem iterate : m.Simulates Eq (Eval.iterate call frame) (Eval.iterate call' frame) := by
  refine bind (Q := fun operands operands' => operands'.1 = operands.1 ∧
    List.Forall₂ m.token operands.2 operands'.2) (onStack ?_) ?_
  · exact .bind (.require 2) fun _ _ _ => .bind .popCount fun _ _ hn =>
      .bind .popQuotation fun _ _ hb => .pure ⟨hn.symm, hb⟩
  · rintro ⟨count, body⟩ ⟨count', body'⟩ ⟨hn, hb⟩
    obtain rfl : count' = count := hn
    exact times (hc _ _ _ hb) count'

theorem choose : m.Simulates Eq (Eval.choose call frame) (Eval.choose call' frame) := by
  refine bind (Q := fun operands operands' => operands'.1 = operands.1 ∧
    operands.2.1.Corresponds m.token operands'.2.1 ∧
      operands.2.2.Corresponds m.token operands'.2.2) (onStack ?_) ?_
  · exact .bind (.require 3) fun _ _ _ => .bind .pop fun _ _ hf => .bind .pop fun _ _ ht =>
      .bind .popNumber fun _ _ hn => .pure ⟨hn.symm, ht, hf⟩
  · rintro ⟨condition, whenTrue, whenFalse⟩ ⟨condition', whenTrue', whenFalse'⟩ ⟨hn, ht, hf⟩
    obtain rfl : condition' = condition := hn
    have hv : (if condition' != 0 then whenTrue else whenFalse).Corresponds m.token
        (if condition' != 0 then whenTrue' else whenFalse') := by
      split
      · exact ht
      · exact hf
    simp only
    generalize (if condition' != 0 then whenTrue else whenFalse) = value at hv
    generalize (if condition' != 0 then whenTrue' else whenFalse') = value' at hv
    cases hv with
    | number x => exact push (.number x)
    | sequence hi => exact push (.sequence hi)
    | quotation hb => exact hc _ _ _ hb
    | reference name => exact push (.reference name)

theorem apply : m.Simulates Eq (Eval.apply call frame) (Eval.apply call' frame) := by
  refine bind (onStack .pop) fun v v' hv => ?_
  cases hv with
  | number x => exact fail _
  | sequence hi => exact fail _
  | quotation hb => exact only (hc _ _ _ hb)
  | reference name => exact pure rfl

theorem invoke (operation : Primitive) :
    m.Simulates Eq (Eval.invoke call operation) (Eval.invoke call' operation) := by
  cases operation with
  | add | subtract | multiply | power | logarithm | larger | smaller | compare =>
    exact only (binary _)
  | divide | remainder => exact only (binaryNonzero _)
  | copy | copySecond => exact only (onStack (.copyFromTop _))
  | swap | rotate3 => exact only (onStack (.rotate _))
  | drop => exact only (bind (onStack .pop) fun _ _ _ => pure rfl)
  | define => exact only define
  | addAlias => exact only addAlias
  | map => exact only (map hc)
  | fold => exact only (fold hc)
  | fold1 => exact only (fold1 hc)
  | filter => exact only (filter hc)
  | iterate => exact only (iterate hc)
  | choose => exact only (choose hc)
  | apply => exact apply hc
  | length => exact only length
  | sum => exact only sum
  | draw => exact only draw
  | readNumber => exact only readNumber
  | print => exact only print

/-! The evaluator. -/

/-- Executing a word reference that was applied leaves a smaller stack, so the induction is on the
height of the stack. -/
theorem execute (name : String) (s s' : Session) (h : m.Related s s') :
    m.Matches Eq (Eval.execute call name s) (Eval.execute call' name s') := by
  have hd := m.lookup h.dictionary name
  cases hl : s.dictionary.lookup? name with
  | none =>
    rw [hl] at hd
    have hl' : s'.dictionary.lookup? name = none := by
      generalize s'.dictionary.lookup? name = found at hd
      cases hd
      rfl
    rw [execute_unknown hl, execute_unknown hl']
    exact .error (.refl m _) h
  | some definition =>
    rw [hl] at hd
    obtain ⟨definition', hl', hdef⟩ : ∃ definition',
        s'.dictionary.lookup? name = some definition' ∧
          definition.Corresponds m.token definition' := by
      generalize s'.dictionary.lookup? name = found at hd
      cases hd with
      | some hdef => exact ⟨_, rfl, hdef⟩
    cases hdef with
    | user hb =>
      rw [execute_user hl, execute_user hl']
      exact hc name _ _ hb s s' h
    | primitive operation =>
      have hm := invoke hc operation s s' h
      cases hi : Eval.invoke call operation s with
      | error e t =>
        rw [hi] at hm
        rw [execute_primitive_error hl hi]
        generalize hi' : Eval.invoke call' operation s' = r' at hm
        cases hm with
        | error he ht =>
          rw [execute_primitive_error hl' hi']
          exact Matches.nameWord (α := Unit) (Q := Eq) (.error he ht) name
        | excused hx => exact .excused hx
      | ok next t =>
        rw [hi] at hm
        generalize hi' : Eval.invoke call' operation s' = r' at hm
        cases hm with
        | ok hn ht =>
          subst hn
          cases next with
          | none =>
            rw [execute_primitive_ok hl hi, execute_primitive_ok hl' hi']
            exact .ok rfl ht
          | some next =>
            have hlt := height_lt_of_invoke hi
            rw [execute_primitive_next hl hi, execute_primitive_next hl' hi']
            exact (execute next _ _ ht).nameWord name
termination_by s.stack.height

/-- By induction on the number of tokens. -/
theorem run {tokens tokens' : List Token} (h : List.Forall₂ m.token tokens tokens') :
    m.Simulates Eq (Eval.run call tokens) (Eval.run call' tokens') := by
  cases h with
  | nil =>
    rw [run_nil, run_nil]
    exact pure rfl
  | @cons token token' rest rest' ht hr =>
    obtain ⟨kind, p⟩ := token
    obtain ⟨kind', p'⟩ := token'
    obtain rfl : kind' = kind := m.kind_eq ht
    cases kind' with
    | number x =>
      rw [run_number, run_number]
      exact bind (push (.number x)) fun _ _ _ => run hr
    | quoted name =>
      rw [run_quoted, run_quoted]
      exact bind (push (.reference name)) fun _ _ _ => run hr
    | word name =>
      rw [run_word, run_word]
      exact bind (execute hc name) fun _ _ _ => run hr
    | closer bracket =>
      rw [run_closer, run_closer]
      exact fun s s' h => .error ⟨.unexpectedCloser ht, rfl, rfl⟩ h
    | opener bracket =>
      have hs := Token.splitAtCloser_rel m.kind_eq hr 0
      cases hsplit : Token.splitAtCloser 0 rest with
      | none =>
        rw [hsplit] at hs
        generalize hsplit' : Token.splitAtCloser 0 rest' = found at hs
        cases hs
        rw [run_unclosed _ _ _ hsplit, run_unclosed _ _ _ hsplit']
        exact fun s s' h => .error ⟨.unclosed ht, rfl, rfl⟩ h
      | some parts =>
        rw [hsplit] at hs
        generalize hsplit' : Token.splitAtCloser 0 rest' = found at hs
        cases hs with
        | @some _ parts' hp =>
          obtain ⟨body, after⟩ := parts
          obtain ⟨body', after'⟩ := parts'
          have hlen := Token.length_of_splitAtCloser hsplit
          rw [run_opener _ _ _ hsplit, run_opener _ _ _ hsplit']
          exact bind (enclosed bracket hp.1 (run hp.1)) fun _ _ _ => run hp.2
termination_by tokens.length
decreasing_by
  all_goals simp only [List.length_cons]
  all_goals omega

end Combinators

end Simulates

/-- By induction on the room that is left in the first run. Where the second run has more room, only
an excuse helps when the first one reaches its limit. -/
theorem simulates_callWithin {room room' : Nat} (hle : room ≤ room')
    (hlt : room < room' → ∀ limit, m.excused (.recursionLimit limit)) (frame : String)
    {body body' : List Token} (hb : List.Forall₂ m.token body body') :
    m.Simulates Eq (callWithin room frame body) (callWithin room' frame body') := by
  induction room generalizing room' frame body body' with
  | zero =>
    cases room' with
    | zero =>
      intro s s' h
      simp only [callWithin, h.first, h.second]
      exact .error ⟨.limit, rfl, rfl⟩ h
    | succ room' =>
      -- the second run goes on where the first one is cut off
      exact fun s s' h => .excused (hlt (Nat.succ_pos room') _)
  | succ room ih =>
    cases room' with
    | zero => omega
    | succ room' =>
      have hcall (frame : String) (body body' : List Token)
          (hb : List.Forall₂ m.token body body') :
          m.Simulates Eq (callWithin room frame body) (callWithin room' frame body') :=
        ih (by omega) (fun h => hlt (by omega)) frame hb
      exact .inFrame frame (.run hcall hb)

/-- Evaluations of related sessions match, if the first one has no more room than the second one
and, where it has less, is excused for reaching its limit. -/
theorem Related.evaluate {s s' : Session} (h : m.Related s s') (hle : s.room ≤ s'.room)
    (hlt : s.room < s'.room → ∀ limit, m.excused (.recursionLimit limit))
    {tokens tokens' : List Token} (ht : List.Forall₂ m.token tokens tokens') :
    m.Matches Eq (Eval.evaluate tokens s) (Eval.evaluate tokens' s') := by
  have hcall (frame : String) (body body' : List Token) (hb : List.Forall₂ m.token body body') :
      m.Simulates Eq (callWithin s.room frame body) (callWithin s'.room frame body') :=
    simulates_callWithin hle hlt frame hb
  exact Simulates.run hcall ht s s' h

end Simulation

end StackCalc
