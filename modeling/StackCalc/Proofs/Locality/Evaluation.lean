import StackCalc.Proofs.Locality.Words

/-!
Every evaluation runs in parallel with itself: loops, array scopes and combinators do, whatever
bodies they run, and so does the evaluator by induction on the room that is left.
-/
namespace StackCalc.Parallel

open Eval

variable {w : World} {α : Type}

/-! Sequences of bodies. -/

section Loops
variable {β ι : Type}

theorem mapM {f f' : ι → Eval β} (hf : ∀ item, Parallel w id (f item) (f' item))
    (items : List ι) : Parallel w id (items.mapM f) (items.mapM f') := by
  induction items with
  | nil =>
    simp only [List.mapM_nil]
    exact pure []
  | cons item rest ih =>
    simp only [List.mapM_cons]
    exact bind (hf item) fun _ => bind ih fun _ => pure _

theorem foldlM {f f' : β → ι → Eval β} (hf : ∀ b item, Parallel w id (f b item) (f' b item))
    (items : List ι) (b : β) : Parallel w id (items.foldlM f b) (items.foldlM f' b) := by
  induction items generalizing b with
  | nil => exact pure b
  | cons item rest ih =>
    simp only [List.foldlM_cons]
    exact bind (hf b item) fun b' => ih b'

theorem times {act act' : Eval Unit} (ha : Parallel w id act act') (count : Nat) :
    Parallel w id (Eval.times act count) (Eval.times act' count) := by
  induction count with
  | zero => exact pure ()
  | succ count ih => exact bind ha fun _ => ih

end Loops

theorem only {act : Eval Unit} (ha : Parallel w id act act) :
    Parallel w id (Eval.only act) (Eval.only act) :=
  bind ha fun _ => pure none

/-! Changes of scope: the body runs in a world of its own. -/

/-- The heights of the current stacks are as far apart as their footings. -/
theorem height : Parallel w (· + w.below.length) Eval.height Eval.height := by
  refine ⟨fun {s s'} h => ?_, fun s => Sunk.refl s.enclosing⟩
  have hh : Eval.height s' = .ok (s.stack.height + w.below.length) s' :=
    congrArg (EStateM.Result.ok · s') h.stack.height_eq
  rw [hh]
  exact .ok h

theorem watching {act : Eval Unit} (ha : Parallel w.watched id act act) :
    Parallel w (· + w.below.length) (Eval.watching act) (Eval.watching act) := by
  constructor
  · intro s s' h
    have hr := ha.agree h.watchEntered
    simp only [Eval.watching]
    generalize act (watchEntered s) = r at hr
    generalize act (watchEntered s') = r' at hr
    have hmark {t t' : Stack} (ht : w.watched.current.Bears t t') :
        w.current.Bears (t.unwatched s.stack.mark) (t'.unwatched s'.stack.mark) := by
      refine World.bears_of ht.values_eq fun hw => ?_
      -- the marks of the two outer watches, and those of the inner ones, differ by the footing
      have hm := h.stack.mark_eq hw
      have hm' := ht.mark_eq trivial
      simp only [Stack.unwatched, World.watched] at hm' ⊢
      omega
    cases hr with
    | @ok _ t t' ht =>
      have hl : t'.stack.mark = t.stack.mark + w.below.length := ht.stack.mark_eq trivial
      simp only [hl]
      exact .ok { ht with stack := hmark ht.stack }
    | error ht => exact .error { ht with stack := hmark ht.stack }
    | short hw hk => exact .short hw hk
    | dug hd => exact .dug (by cases r <;> exact hd)
  · intro s
    have hk := ha.sinks (watchEntered s)
    simp only [Eval.watching]
    cases hr : act (watchEntered s) <;> rw [hr] at hk <;> exact hk

theorem inFrame (name : String) {act : Eval Unit} (ha : Parallel w id act act) :
    Parallel w id (Eval.inFrame name act) (Eval.inFrame name act) := by
  constructor
  · intro s s' h
    have hd : Alike w { s with depth := s.depth + 1 } { s' with depth := s'.depth + 1 } :=
      { h with depth := by simp only [h.depth] }
    have hr := ha.agree hd
    simp only [Eval.inFrame]
    generalize act { s with depth := s.depth + 1 } = r at hr
    generalize act { s' with depth := s'.depth + 1 } = r' at hr
    cases hr with
    | ok ht => exact .ok { ht with depth := by simp only [ht.depth] }
    | error ht => exact .error { ht with depth := by simp only [ht.depth] }
    | short hw hk => exact .short hw hk
    | dug hd => exact .dug (by cases r <;> exact hd)
  · intro s
    have hk := ha.sinks { s with depth := s.depth + 1 }
    simp only [Eval.inFrame]
    cases hr : act { s with depth := s.depth + 1 } <;> rw [hr] at hk <;> exact hk

theorem arrayScope {body : Eval Unit} (hb : Parallel w.inScope id body body) :
    Parallel w id (Eval.arrayScope body) (Eval.arrayScope body) := by
  constructor
  · intro s s' h
    have hr := hb.agree h.scopeEntered
    have he := enclosing_arrayScope body s
    simp only [Eval.arrayScope] at he ⊢
    generalize body (scopeEntered s) = r at hr he
    generalize body (scopeEntered s') = r' at hr
    cases hr with
    | ok ht =>
      -- the stack that the body leaves rests on nothing in either run
      have hv := ht.stack.values_eq
      simp only [World.inScope, List.append_nil] at hv
      simp only [Stack.fromBottom, hv]
      exact (push _).agree ht.scopeLeft
    | error ht => exact .error ht.scopeLeft
    | short hw hk => exact .short (World.even_of_inScope hw) hk
    | dug hd => exact .dug (he ▸ World.dug_tail hd)
  · intro s
    rw [enclosing_arrayScope]
    exact (hb.sinks (scopeEntered s)).tail

theorem enclosed (bracket : Bracket) (body : List Token) {runBody : Eval Unit}
    (hb : Parallel w.inScope id runBody runBody) :
    Parallel w id (Eval.enclosed bracket body runBody) (Eval.enclosed bracket body runBody) := by
  cases bracket with
  | brace => exact push _
  | square => exact arrayScope hb

/-! Combinators. -/

section Combinators
variable {call : Caller} {frame : String} {body : List Token}

/-- The base lies on the footing, so it moves with it, and so does the mark that is compared to
it. -/
theorem singleResult (base : Nat)
    (hc : Parallel w.watched id (call frame body) (call frame body)) :
    Parallel w id (Eval.singleResult call frame body base)
      (Eval.singleResult call frame body (base + w.below.length)) := by
  refine bind (watching hc) fun low => bind height fun left => ?_
  have hif : (decide (low + w.below.length < base + w.below.length) ||
      left + w.below.length != base + w.below.length + 1) =
        (decide (low < base) || left != base + 1) := by
    grind
  have hleft : left + w.below.length - min (low + w.below.length) (base + w.below.length) =
      left - min low base := by
    omega
  simp only [hif, hleft]
  split
  · exact fail _
  · exact onStack OpParallel.pop

variable (hc : ∀ w frame body, Parallel w id (call frame body) (call frame body))
include hc

theorem map : Parallel w id (Eval.map call frame) (Eval.map call frame) := by
  refine bind (onStack .popSequenceBody) ?_
  rintro ⟨items, body⟩
  refine bind height fun base => bind (mapM (fun item => ?_) items) fun _ => push _
  exact bind (push item) fun _ => singleResult base (hc _ _ _)

theorem reduce (first : Value) (items : List Value) :
    Parallel w id (Eval.reduce call frame body first items)
      (Eval.reduce call frame body first items) := by
  refine bind height fun base => foldlM (fun accumulator item => ?_) items first
  exact bind (push _) fun _ => bind (push item) fun _ => singleResult base (hc _ _ _)

theorem fold : Parallel w id (Eval.fold call frame) (Eval.fold call frame) := by
  refine bind (onStack .popSequenceStartBody) ?_
  rintro ⟨items, start, body⟩
  exact bind (reduce hc start items) fun _ => push _

theorem fold1 : Parallel w id (Eval.fold1 call frame) (Eval.fold1 call frame) := by
  refine bind (onStack .popSequenceBody) ?_
  rintro ⟨items, body⟩
  cases items with
  | nil => exact fail _
  | cons first rest => exact bind (reduce hc first rest) fun _ => push _

theorem filter : Parallel w id (Eval.filter call frame) (Eval.filter call frame) := by
  refine bind (onStack .popSequenceBody) ?_
  rintro ⟨items, body⟩
  refine bind height fun base => bind (mapM (fun item => ?_) items) fun _ => push _
  exact bind (push item) fun _ => bind (singleResult base (hc _ _ _)) fun _ => pure _

theorem iterate : Parallel w id (Eval.iterate call frame) (Eval.iterate call frame) := by
  refine bind (onStack ?_) ?_
  · exact .bind (.require 2) fun _ => .bind .popCount fun _ => .bind .popQuotation fun _ => .pure _
  rintro ⟨count, body⟩
  exact times (hc _ _ _) count

theorem choose : Parallel w id (Eval.choose call frame) (Eval.choose call frame) := by
  refine bind (onStack ?_) ?_
  · exact .bind (.require 3) fun _ => .bind .pop fun _ => .bind .pop fun _ =>
      .bind .popNumber fun _ => .pure _
  rintro ⟨condition, whenTrue, whenFalse⟩
  simp only [id]
  cases if condition != 0 then whenTrue else whenFalse with
  | quotation body => exact hc _ _ _
  | _ => exact push _

theorem apply : Parallel w id (Eval.apply call frame) (Eval.apply call frame) := by
  refine bind (onStack OpParallel.pop) fun value => ?_
  cases value with
  | quotation body => exact only (hc _ _ _)
  | reference name => exact pure _
  | _ => exact fail _

theorem invoke (operation : Primitive) :
    Parallel w id (Eval.invoke call operation) (Eval.invoke call operation) := by
  cases operation with
  | add | subtract | multiply | power | logarithm | larger | smaller | compare =>
    exact only (binary _)
  | divide | remainder => exact only (binaryNonzero _)
  | copy | copySecond => exact only (onStack (.copyFromTop _))
  | swap | rotate3 => exact only (onStack (.rotate (by decide)))
  | drop => exact only (bind (onStack .pop) fun _ => pure _)
  | define => exact only define
  | addAlias => exact only addAlias
  | map => exact only (map hc)
  | fold => exact only (fold hc)
  | fold1 => exact only (fold1 hc)
  | filter => exact only (filter hc)
  | iterate => exact only (iterate hc)
  | choose => exact only (choose hc)
  | apply => exact apply hc
  | length => exact only length
  | sum => exact only sum
  | draw => exact only draw
  | readNumber => exact only readNumber
  | print => exact only print

/-! The evaluator. -/

/-- Executing a word reference that was applied leaves a smaller stack, so the induction is on the
height of the stack. -/
theorem execute_sinks (name : String) (s : Session) :
    Sunk s.enclosing (finalState (Eval.execute call name s)).enclosing := by
  cases hl : s.dictionary.lookup? name with
  | none =>
    rw [execute_unknown hl]
    exact Sunk.refl s.enclosing
  | some definition =>
    cases definition with
    | user body =>
      rw [execute_user hl]
      exact (hc default name body).sinks s
    | primitive operation =>
      have hk := (invoke (w := default) hc operation).sinks s
      cases hi : Eval.invoke call operation s with
      | error error t =>
        rw [execute_primitive_error hl hi]
        rw [hi] at hk
        exact hk
      | ok next t =>
        rw [hi] at hk
        cases next with
        | none =>
          rw [execute_primitive_ok hl hi]
          exact hk
        | some next =>
          have hlt := height_lt_of_invoke hi
          rw [execute_primitive_next hl hi, finalState_nameWord]
          exact Sunk.trans hk (execute_sinks next t)
termination_by s.stack.height

theorem execute_agree (name : String) {s s' : Session} (h : Alike w s s') :
    Agree w id (Eval.execute call name s) (Eval.execute call name s') := by
  have hd := h.dictionary
  cases hl : s.dictionary.lookup? name with
  | none =>
    rw [execute_unknown hl, execute_unknown (hd ▸ hl)]
    exact .error h
  | some definition =>
    cases definition with
    | user body =>
      rw [execute_user hl, execute_user (hd ▸ hl)]
      exact (hc w name body).agree h
    | primitive operation =>
      have ha := (invoke hc operation).agree h
      cases hi : Eval.invoke call operation s with
      | error error t =>
        rw [execute_primitive_error hl hi]
        rw [hi] at ha
        generalize hi' : Eval.invoke call operation s' = r' at ha
        cases ha with
        | error ht =>
          rw [execute_primitive_error (hd ▸ hl) hi']
          exact .error ht
        | short hw hk => exact .short hw hk
        | dug ht => exact .dug ht
      | ok next t =>
        rw [hi] at ha
        generalize hi' : Eval.invoke call operation s' = r' at ha
        cases next with
        | none =>
          rw [execute_primitive_ok hl hi]
          cases ha with
          | ok ht =>
            rw [execute_primitive_ok (hd ▸ hl) hi']
            exact .ok ht
          | dug ht => exact .dug ht
        | some next =>
          have hlt := height_lt_of_invoke hi
          rw [execute_primitive_next hl hi]
          cases ha with
          | ok ht =>
            rw [execute_primitive_next (hd ▸ hl) hi']
            exact (execute_agree next ht).nameWord name
          | dug ht =>
            apply Agree.dug
            rw [finalState_nameWord]
            exact ht.sunk (execute_sinks hc next t)
termination_by s.stack.height

theorem execute (name : String) : Parallel w id (Eval.execute call name) (Eval.execute call name) :=
  ⟨execute_agree hc name, execute_sinks hc name⟩

/-- By induction on the number of tokens; the body of an array scope runs in the scope's world. -/
theorem run (w : World) (tokens : List Token) :
    Parallel w id (Eval.run call tokens) (Eval.run call tokens) := by
  cases tokens with
  | nil =>
    rw [run_nil]
    exact pure ()
  | cons token rest =>
    obtain ⟨kind, position⟩ := token
    cases kind with
    | number value =>
      rw [run_number]
      exact bind (push _) fun _ => run w rest
    | quoted name =>
      rw [run_quoted]
      exact bind (push _) fun _ => run w rest
    | word name =>
      rw [run_word]
      exact bind (execute hc name) fun _ => run w rest
    | closer bracket =>
      rw [run_closer]
      exact fail _
    | opener bracket =>
      cases hsplit : Token.splitAtCloser 0 rest with
      | none =>
        rw [run_unclosed call bracket position hsplit]
        exact fail _
      | some parts =>
        obtain ⟨body, after⟩ := parts
        have hlen := Token.length_of_splitAtCloser hsplit
        rw [run_opener call bracket position hsplit]
        exact bind (enclosed bracket body (run w.inScope body)) fun _ => run w after
termination_by tokens.length
decreasing_by
  all_goals simp only [List.length_cons]
  all_goals omega

end Combinators

theorem callWithin (room : Nat) (w : World) (frame : String) (body : List Token) :
    Parallel w id (Eval.callWithin room frame body) (Eval.callWithin room frame body) := by
  induction room generalizing w frame body with
  | zero =>
    refine of_enclosing_eq ?_ fun _ => rfl
    intro s s' h
    simp only [Eval.callWithin, h.settings]
    exact .error h
  | succ room ih => exact inFrame frame (run ih w body)

/-- Sessions at the same depth have the same room left. -/
theorem evaluate (tokens : List Token) :
    Parallel w id (Eval.evaluate tokens) (Eval.evaluate tokens) := by
  constructor
  · intro s s' h
    have hroom : s'.room = s.room := by rw [Session.room, Session.room, h.settings, h.depth]
    rw [Eval.evaluate, Eval.evaluate, hroom]
    exact (run (callWithin s.room) w tokens).agree h
  · intro s
    exact (run (callWithin s.room) w tokens).sinks s

end StackCalc.Parallel
