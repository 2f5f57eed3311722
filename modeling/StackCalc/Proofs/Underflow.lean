import StackCalc.Proofs.Traversal

/-!
Too few operands. A primitive counts its operands before it takes any, so that a shortage changes
nothing; with enough of them, a shortage can only arise in what the primitive runs.
-/
namespace StackCalc

open Eval

namespace Stack
variable {α β : Type}

/-- Where there are at least `count` values, the operation takes so many, and if it fails, then not
for want of values. -/
def Takes (count : Nat) (op : Op α) : Prop :=
  ∀ s : Stack, count ≤ s.height →
    match op s with
    | .ok _ t => t.height + count = s.height
    | .error kind _ => ¬ kind.IsUnderflow

/-- Where there are fewer than `count` values, the operation takes none, and reports what it needs
and what there is. Else, if it fails, then not for want of values. -/
structure Demands (count : Nat) (op : Op α) : Prop where
  short : ∀ {s : Stack}, s.height < count → op s = .error (.stackUnderflow count s.height) s
  enough : ∀ {s t : Stack} {kind : ErrorKind}, count ≤ s.height → op s = .error kind t →
    ¬ kind.IsUnderflow

namespace Takes

theorem pure (a : α) : Takes 0 (Pure.pure a) :=
  fun _ _ => rfl

theorem mismatch (expected : String) (found : Value) :
    Takes 0 (Stack.mismatch expected found : Op α) :=
  fun _ _ => id

theorem pop : Takes 1 Stack.pop := by
  intro s h
  cases hv : s.values with
  | nil =>
    have hzero := s.height_eq
    rw [hv, List.length_nil] at hzero
    omega
  | cons value rest =>
    rw [pop_eq_ok.2 ⟨rest, hv, rfl⟩]
    exact Nat.sub_add_cancel h

theorem bind {m n : Nat} {op : Op α} {next : α → Op β} (ho : Takes m op)
    (hn : ∀ a, Takes n (next a)) : Takes (n + m) (op >>= next) := by
  intro s h
  have hop := ho s (by omega)
  -- what the first operation takes is not there for the second, but both have been counted
  cases hr : op s with
  | ok a t =>
    rw [hr] at hop
    have hheight : t.height + m = s.height := hop
    have hnext := hn a t (by omega)
    rw [bind_of_ok hr]
    cases hu : next a t with
    | ok b u =>
      rw [hu] at hnext
      have hrest : u.height + n = t.height := hnext
      exact (by omega : u.height + (n + m) = s.height)
    | error kind u =>
      rw [hu] at hnext
      exact hnext
  | error kind t =>
    rw [hr] at hop
    rw [bind_of_error hr]
    exact hop

theorem popNumber : Takes 1 Stack.popNumber :=
  pop.bind fun value => by
    cases value with
    | number value => exact pure value
    | _ => exact mismatch _ _

theorem popSequence : Takes 1 Stack.popSequence :=
  pop.bind fun value => by
    cases value with
    | sequence items => exact pure items
    | _ => exact mismatch _ _

theorem popQuotation : Takes 1 Stack.popQuotation :=
  pop.bind fun value => by
    cases value with
    | quotation body => exact pure body
    | _ => exact mismatch _ _

theorem popReference : Takes 1 Stack.popReference :=
  pop.bind fun value => by
    cases value with
    | reference name => exact pure name
    | _ => exact mismatch _ _

theorem popCount : Takes 1 Stack.popCount :=
  popNumber.bind fun value => by
    cases Arithmetic.count? value with
    | some count => exact pure count
    | none => exact fun _ _ => id

end Takes

namespace Demands

/-- The values are counted first, and then taken. -/
theorem of_require {count : Nat} {op : Op α} (h : Takes count op) :
    Demands count (require count >>= fun _ => op) where
  short hs := bind_of_error (if_pos hs)
  enough {s t kind} hs hr := by
    have hcount : require count s = .ok () s := require_eq_ok.2 ⟨hs, rfl⟩
    rw [bind_of_ok hcount] at hr
    have hop := h s hs
    rw [hr] at hop
    exact hop

/-- A single value needs no count. -/
theorem of_pop {next : Value → Op α} (h : ∀ value, Takes 0 (next value)) :
    Demands 1 (pop >>= next) where
  short {s} hs := by
    have hzero : s.height = 0 := by omega
    have hnil : s.values = [] := List.length_eq_zero_iff.1 (s.height_eq ▸ hzero)
    rw [hzero]
    exact bind_of_error (pop_of_nil hnil)
  enough {s t kind} hs hr := by
    have hop := Takes.pop.bind h s hs
    rw [hr] at hop
    exact hop

theorem pop : Demands 1 Stack.pop := by
  have h := of_pop (α := Value) Takes.pure
  rwa [bind_pure] at h

theorem popSequence : Demands 1 Stack.popSequence :=
  of_pop fun value => by
    cases value with
    | sequence items => exact .pure items
    | _ => exact .mismatch _ _

theorem popNumbers : Demands 2 Stack.popNumbers :=
  of_require (.bind .popNumber fun _ => .bind .popNumber fun _ => .pure _)

theorem popSequenceBody : Demands 2 Stack.popSequenceBody :=
  of_require (.bind .popQuotation fun _ => .bind .popSequence fun _ => .pure _)

theorem popSequenceStartBody : Demands 3 Stack.popSequenceStartBody :=
  of_require (.bind .popQuotation fun _ => .bind .pop fun _ => .bind .popSequence fun _ => .pure _)

theorem copyFromTop (places : Nat) : Demands (places + 1) (Stack.copyFromTop places) where
  short := copyFromTop_of_short
  enough {s t kind} hs hr := by
    rw [copyFromTop_of_lt (s.height_eq ▸ hs)] at hr
    cases hr

theorem rotate (count : Nat) : Demands count (Stack.rotate count) where
  short hs := if_pos hs
  enough {s t kind} hs hr := by
    rw [Stack.rotate, if_neg (Nat.not_lt.2 hs)] at hr
    cases hr

end Demands

end Stack

namespace Eval
variable {α β : Type}

/-- Where the current stack holds fewer than `count` values, the computation changes nothing, and
reports what it needs and what there is. Else, if it fails, then not for want of values. -/
structure Demands (count : Nat) (x : Eval α) : Prop where
  short : ∀ {s : Session}, s.stack.height < count →
    x s = .error { kind := .stackUnderflow count s.stack.height } s
  enough : ∀ {s t : Session} {error : EvalError}, count ≤ s.stack.height →
    x s = .error error t → ¬ error.kind.IsUnderflow

namespace Demands
variable {count : Nat}

/-- A computation that never wants for values demands none. -/
theorem none {x : Eval α} (h : ∀ {s t : Session} {error : EvalError}, x s = .error error t →
    ¬ error.kind.IsUnderflow) : Demands 0 x where
  short hs := absurd hs (Nat.not_lt_zero _)
  enough _ := h

theorem onStack {op : Stack.Op α} (h : Stack.Demands count op) : Demands count (onStack op) where
  short {s} hs := by
    rw [Eval.onStack, h.short hs]
  enough {s t error} hs hr := by
    rw [Eval.onStack] at hr
    cases hop : op s.stack with
    | ok a u =>
      rw [hop] at hr
      cases hr
    | error kind u =>
      rw [hop] at hr
      cases hr
      exact h.enough hs hop

theorem bind {x : Eval α} {f : α → Eval β} (hx : Demands count x) (hf : ∀ a, Demands 0 (f a)) :
    Demands count (x >>= f) where
  short hs := bind_of_error (hx.short hs)
  enough {s t error} hs hr := by
    cases h : x s with
    | ok a u =>
      rw [bind_of_ok h] at hr
      exact (hf a).enough (Nat.zero_le _) hr
    | error e u =>
      rw [bind_of_error h] at hr
      cases hr
      exact hx.enough hs h

theorem pure (a : α) : Demands 0 (Pure.pure a) :=
  none nofun

theorem fail {kind : ErrorKind} (h : ¬ kind.IsUnderflow) : Demands 0 (Eval.fail kind : Eval α) :=
  none fun hr => by
    cases hr
    exact h

theorem push (value : Value) : Demands 0 (Eval.push value) :=
  none nofun

theorem only {act : Eval Unit} (h : Demands count act) : Demands count (Eval.only act) :=
  h.bind fun _ => pure _

theorem binary (f : Float → Float → Float) : Demands 2 (Eval.binary f) :=
  (onStack .popNumbers).bind fun _ => push _

theorem binaryNonzero (f : Float → Float → Float) : Demands 2 (Eval.binaryNonzero f) := by
  refine (onStack .popNumbers).bind ?_
  rintro ⟨a, b⟩
  simp only
  split
  · exact fail id
  · exact push _

theorem define : Demands 2 Eval.define := by
  refine (onStack ?_).bind fun _ => none nofun
  exact .of_require (.bind .popQuotation fun _ => .bind .popReference fun _ => .pure _)

theorem addAlias : Demands 2 Eval.addAlias := by
  refine (onStack ?_).bind fun operands => none fun {s t error} hr => ?_
  · exact .of_require (.bind .popReference fun _ => .bind .popReference fun _ => .pure _)
  · simp only [get_bind_apply] at hr
    cases ha : s.dictionary.addAlias operands.1 operands.2 with
    | ok dictionary =>
      rw [ha] at hr
      cases hr
    | error kind =>
      rw [ha] at hr
      cases hr
      rw [Dictionary.addAlias] at ha
      split at ha
      next =>
        cases ha
        exact id
      next => split at ha <;> cases ha

theorem not_isUnderflow_of_total {items : List Value} {start : Float} {kind : ErrorKind}
    (h : Eval.total start items = .error kind) : ¬ kind.IsUnderflow := by
  induction items generalizing start with
  | nil => cases h
  | cons item rest ih =>
    rw [Eval.total] at h
    split at h
    next => exact ih h
    next =>
      cases h
      exact id

theorem sum : Demands 1 Eval.sum := by
  refine (onStack .popSequence).bind fun items => ?_
  cases ht : Eval.total 0 items with
  | ok value => exact push _
  | error kind => exact fail (not_isUnderflow_of_total ht)

theorem not_isUnderflow_of_lineNumber {line : List UInt8} {kind : ErrorKind}
    (h : Eval.lineNumber? line = .error kind) : ¬ kind.IsUnderflow := by
  simp only [Eval.lineNumber?] at h
  split at h
  · cases h
    exact id
  · split at h <;> cases h
    exact id

theorem readNumber : Demands 0 Eval.readNumber := by
  refine none fun {s t error} hr => ?_
  simp only [Eval.readNumber, get_bind_apply] at hr
  cases hempty : s.input.isEmpty with
  | true =>
    rw [hempty] at hr
    cases hr
    exact id
  | false =>
    rw [hempty] at hr
    simp only [Bool.false_eq_true, if_false, modify_bind_apply] at hr
    cases hl : Eval.lineNumber? (Input.splitLine s.input).1 with
    | ok value =>
      rw [hl] at hr
      cases hr
    | error kind =>
      rw [hl] at hr
      cases hr
      exact not_isUnderflow_of_lineNumber hl

theorem print : Demands 1 Eval.print := by
  refine (onStack .pop).bind fun value => none fun {s t error} hr => ?_
  split at hr
  · cases hr
  · cases hr
    exact id

theorem height : Demands 0 Eval.height :=
  none nofun

/-- A primitive that calls nothing is finished once it has been invoked. -/
theorem finished {act : Eval Unit} (h : Demands count act) :
    Demands count (do
      let _ ← Eval.only act
      return Sequel.finished) :=
  (only h).bind fun _ => pure _

end Demands

end Eval

/-- The number of operands that a primitive counts before it takes any. -/
def Primitive.operands : Primitive → Nat
  | .rotate3 | .fold | .choose => 3
  | .add | .subtract | .multiply | .divide | .remainder | .power | .logarithm | .larger | .smaller
  | .compare | .swap | .copySecond | .define | .addAlias | .map | .fold1 | .filter | .iterate => 2
  | .copy | .drop | .apply | .length | .sum | .print | .draw => 1
  | .readNumber => 0

namespace Eval.Demands

/-- All operands lie on the current stack but the one of `draw`. -/
theorem start {operation : Primitive} (h : operation ≠ .draw) :
    Demands operation.operands (Eval.start operation) := by
  cases operation with
  | add | subtract | multiply | power | logarithm | larger | smaller | compare =>
    exact finished (binary _)
  | divide | remainder => exact finished (binaryNonzero _)
  | copy | copySecond => exact finished (onStack (.copyFromTop _))
  | swap | rotate3 => exact finished (onStack (.rotate _))
  | drop => exact finished ((onStack .pop).bind fun _ => pure _)
  | define => exact finished define
  | addAlias => exact finished addAlias
  | map => exact (onStack .popSequenceBody).bind fun _ => height.bind fun _ => pure _
  | filter => exact (onStack .popSequenceBody).bind fun _ => height.bind fun _ => pure _
  | fold => exact (onStack .popSequenceStartBody).bind fun _ => height.bind fun _ => pure _
  | fold1 =>
    refine (onStack .popSequenceBody).bind ?_
    rintro ⟨items, body⟩
    cases items with
    | nil => exact fail id
    | cons first rest => exact height.bind fun _ => pure _
  | iterate =>
    refine (onStack ?_).bind fun _ => pure _
    exact .of_require (.bind .popCount fun _ => .bind .popQuotation fun _ => .pure _)
  | choose =>
    refine (onStack ?_).bind ?_
    · exact .of_require (.bind .pop fun _ => .bind .pop fun _ => .bind .popNumber fun _ => .pure _)
    rintro ⟨condition, whenTrue, whenFalse⟩
    simp only
    cases if condition != 0 then whenTrue else whenFalse with
    | quotation body => exact pure _
    | _ => exact (push _).bind fun _ => pure _
  | apply =>
    refine (onStack .pop).bind fun value => ?_
    cases value with
    | quotation body => exact pure _
    | reference name => exact pure _
    | _ => exact fail id
  | length => exact finished ((onStack .popSequence).bind fun _ => push _)
  | sum => exact finished sum
  | draw => exact absurd rfl h
  | readNumber => exact finished readNumber
  | print => exact finished print

end Eval.Demands

/-! What a primitive runs once it has its operands. -/

/-- Pursued from `s` on, the sequel comes to a call of the body at the session `u`. -/
inductive Sequel.Calls (call : Caller) :
    Sequel → Session → String → List Token → Session → Prop where
  | once {frame : String} {body : List Token} {s : Session} :
      Calls call (.call frame body) s frame body s
  | again {frame : String} {body : List Token} {earlier count : Nat} {s u : Session} :
      earlier < count → times (call frame body) earlier s = .ok () u →
      Calls call (.again frame body count) s frame body u
  | gather {frame : String} {body : List Token} {base : Nat} {harvest reached : Harvest}
      {done left : List Value} {item : Value} {calls : List Session} {s u : Session} :
      Rounds call frame body base harvest s done calls reached u →
      Calls call (.gather ⟨frame, body, base, harvest, done ++ item :: left⟩) s frame body
        (watchEntered (reached.offer item u))

section Pursue
variable {call : Caller} {s t : Session} {error : EvalError}

theorem only_eq_error {act : Eval Unit} (h : only act s = .error error t) :
    act s = .error error t := by
  cases hr : act s with
  | ok _ u =>
    rw [only, bind_of_ok hr] at h
    cases h
  | error e u =>
    rw [only, bind_of_error hr] at h
    cases h
    rfl

/-- The calls before the first one that fails have succeeded. -/
theorem times_eq_error {act : Eval Unit} {count : Nat} (h : times act count s = .error error t) :
    ∃ earlier u, earlier < count ∧ times act earlier s = .ok () u ∧ act u = .error error t := by
  induction count generalizing s with
  | zero => cases h
  | succ count ih =>
    cases hr : act s with
    | error e u =>
      rw [times, bind_of_error hr] at h
      cases h
      exact ⟨0, s, Nat.succ_pos _, rfl, hr⟩
    | ok _ u =>
      rw [times, bind_of_ok hr] at h
      obtain ⟨earlier, v, hlt, hv, hfail⟩ := ih h
      refine ⟨earlier + 1, v, Nat.succ_lt_succ hlt, ?_, hfail⟩
      rw [times, bind_of_ok hr]
      exact hv

theorem gather_eq_error {frame : String} {body : List Token} {base : Nat} {harvest : Harvest}
    {items : List Value} (h : gather call frame body base harvest items s = .error error t) :
    ∃ done item later calls reached u, items = done ++ item :: later ∧
      Rounds call frame body base harvest s done calls reached u ∧
      singleResult call frame body base (reached.offer item u) = .error error t := by
  obtain ⟨done, left, calls, reached, u, rfl, hrounds, hleft⟩ :=
    exists_rounds call frame body base harvest items s
  rw [hrounds.gather] at h
  rcases hleft with rfl | ⟨item, later, e, v, rfl, hr⟩
  · cases h
  · rw [gather_cons, bind_of_error hr] at h
    cases h
    exact ⟨done, item, later, calls, reached, u, rfl, hrounds, hr⟩

/-- An error is that of a call, or a combinator has given up what a call has left. -/
theorem pursue_eq_error {sequel : Sequel} (h : pursue call sequel s = .error error t) :
    (∃ frame body u v, sequel.Calls call s frame body u ∧ call frame body u = .error error v) ∨
      ∃ found, error = { kind := .arity 1 found } := by
  cases sequel with
  | finished | word name => cases h
  | call frame body => exact .inl ⟨frame, body, s, t, .once, only_eq_error h⟩
  | again frame body count =>
    obtain ⟨earlier, u, hlt, hu, hfail⟩ := times_eq_error (only_eq_error h)
    exact .inl ⟨frame, body, u, t, .again hlt hu, hfail⟩
  | gather loop =>
    obtain ⟨frame, body, base, harvest, items⟩ := loop
    obtain ⟨done, item, later, calls, reached, u, rfl, hrounds, hr⟩ :=
      gather_eq_error (only_eq_error h)
    obtain ⟨v, -, hfail | ⟨-, hfound⟩⟩ := singleResult_eq_error hr
    · exact .inl ⟨frame, body, _, v, .gather hrounds, hfail⟩
    · exact .inr hfound

end Pursue

/-- The stack that the operands are to lie on; outside array scopes, `draw` has none. -/
def Session.operandStack? (s : Session) : Primitive → Option Stack
  | .draw => s.enclosing.head?
  | _ => some s.stack

section Start
variable {operation : Primitive} {s t : Session} {error : EvalError}

/-- A shortage is noticed before anything changes. -/
theorem start_of_short {stack : Stack} (h : s.operandStack? operation = some stack)
    (hs : stack.height < operation.operands) :
    start operation s =
      .error { kind := .stackUnderflow operation.operands stack.height } s := by
  by_cases hd : operation = .draw
  · -- the operand is on the innermost stack that has been set aside
    subst hd
    obtain ⟨rest, he⟩ := List.head?_eq_some_iff.1 h
    have hzero : stack.height = 0 := Nat.lt_one_iff.1 hs
    have hnil : stack.values = [] := List.length_eq_zero_iff.1 (stack.height_eq ▸ hzero)
    rw [hzero]
    exact bind_of_error (bind_of_error (draw_of_nil he hnil))
  · have hstack : s.operandStack? operation = some s.stack := by
      cases operation <;> first | rfl | exact absurd rfl hd
    cases h.symm.trans hstack
    exact (Demands.start hd).short hs

/-- With enough operands, the primitive gets them or finds another fault. -/
theorem not_isUnderflow_of_start
    (h : ∀ stack, s.operandStack? operation = some stack → operation.operands ≤ stack.height)
    (hr : start operation s = .error error t) : ¬ error.kind.IsUnderflow := by
  by_cases hd : operation = .draw
  · -- outside array scopes nothing is drawn, and inside there is a value
    subst hd
    obtain ⟨u, hdraw⟩ : ∃ u, draw s = .ok () u := by
      cases he : s.enclosing with
      | nil => exact ⟨s, draw_outside he⟩
      | cons outer rest =>
        have hone : 1 ≤ outer.height := h outer (congrArg List.head? he)
        cases hv : outer.values with
        | nil =>
          have hzero := outer.height_eq
          rw [hv, List.length_nil] at hzero
          omega
        | cons value below => exact ⟨_, draw_of_pop he (Stack.pop_eq_ok.2 ⟨below, hv, rfl⟩)⟩
    have hstart : start .draw s = .ok .finished u := by
      have hi : invoke noCall .draw s = .ok none u := only_eq_ok.2 ⟨hdraw, rfl⟩
      exact bind_of_ok hi
    rw [hstart] at hr
    cases hr
  · refine (Demands.start hd).enough (h s.stack ?_) hr
    cases operation <;> first | rfl | exact absurd rfl hd

end Start

section Execute
variable {call : Caller} {operation : Primitive} {name : String} {s t : Session}
  {error : EvalError}

/-- A word that is bound to a primitive fails where the primitive does, or where the word does that
it names. -/
theorem execute_primitive_eq_error (hl : s.dictionary.lookup? name = some (.primitive operation))
    (h : execute call name s = .error error t) : ∃ inner, error = inner.atWord name ∧
      (invoke call operation s = .error inner t ∨
        ∃ next u, invoke call operation s = .ok (some next) u ∧
          execute call next u = .error inner t) := by
  cases hi : invoke call operation s with
  | error inner u =>
    rw [execute_primitive_error hl hi] at h
    cases h
    exact ⟨inner, rfl, .inl rfl⟩
  | ok next u =>
    cases next with
    | none =>
      rw [execute_primitive_ok hl hi] at h
      cases h
    | some next =>
      rw [execute_primitive_next hl hi] at h
      cases hx : execute call next u with
      | ok _ v =>
        rw [hx] at h
        cases h
      | error inner v =>
        rw [hx] at h
        cases h
        exact ⟨inner, rfl, .inr ⟨next, u, rfl, hx⟩⟩

/-- With enough operands, a shortage is the error of a body that the primitive calls. -/
theorem calls_of_shortage
    (h : ∀ stack, s.operandStack? operation = some stack → operation.operands ≤ stack.height)
    (hr : invoke call operation s = .error error t) (hunder : error.kind.IsUnderflow) :
    ∃ sequel u frame body v w, start operation s = .ok sequel u ∧
      sequel.Calls call u frame body v ∧ call frame body v = .error error w := by
  rw [invoke_eq] at hr
  cases hq : start operation s with
  | error e u =>
    -- the operands were there, so that the fault is another one
    rw [bind_of_error hq] at hr
    cases hr
    exact absurd hunder (not_isUnderflow_of_start h hq)
  | ok sequel u =>
    rw [bind_of_ok hq] at hr
    obtain ⟨frame, body, v, w, hcalls, hfail⟩ | ⟨found, rfl⟩ := pursue_eq_error hr
    · exact ⟨sequel, u, frame, body, v, w, rfl, hcalls, hfail⟩
    · exact hunder.elim

end Execute

section Dictionary
variable {call : Caller} {s t : Session} {error : EvalError}

/-- The operands are taken from the stack alone. -/
theorem dictionary_of_operands_error {α : Type} {op : Stack.Op α} {f : α → Eval Unit}
    (hf : ∀ a u, f a u = .error error t → t.dictionary = u.dictionary)
    (h : (onStack op >>= f) s = .error error t) : t.dictionary = s.dictionary := by
  cases hop : op s.stack with
  | ok a u =>
    rw [bind_of_ok (onStack_eq_ok.2 ⟨u, hop, rfl⟩)] at h
    exact hf a { s with stack := u } h
  | error kind u =>
    have hr : onStack op s = .error { kind } { s with stack := u } := by
      rw [onStack, hop]
    rw [bind_of_error hr] at h
    cases h
    rfl

/-- The binding is the last thing that these words do, and it is made whole or not at all. -/
theorem dictionary_of_binding_error {operation : Primitive}
    (ho : operation = .define ∨ operation = .addAlias)
    (h : invoke call operation s = .error error t) : t.dictionary = s.dictionary := by
  rcases ho with rfl | rfl
  · exact dictionary_of_operands_error (fun operands u hu => by cases hu) (only_eq_error h)
  · refine dictionary_of_operands_error (fun operands u hu => ?_) (only_eq_error h)
    simp only [get_bind_apply] at hu
    cases ha : u.dictionary.addAlias operands.1 operands.2 with
    | ok dictionary =>
      rw [ha] at hu
      cases hu
    | error kind =>
      rw [ha] at hu
      cases hu
      rfl

end Dictionary

/-- With too few operands a primitive fails, says how many it needs and how many there are, and
leaves the session exactly as it was. With enough of them, a shortage is the error of a body that
it calls, or of the word that an applied reference names. Where `define` and `addAlias` fail, the
dictionary is as before. -/
theorem operands_checked (call : Caller) {operation : Primitive} {name : String} {s : Session}
    (hl : s.dictionary.lookup? name = some (.primitive operation)) :
    (∀ stack, s.operandStack? operation = some stack →
      stack.values.length < operation.operands →
      execute call name s = .error
        { kind := .stackUnderflow operation.operands stack.values.length, word := some name } s) ∧
    ((∀ stack, s.operandStack? operation = some stack →
        operation.operands ≤ stack.values.length) →
      ∀ error t needed available, execute call name s = .error error t →
        error.kind = .stackUnderflow needed available →
        ∃ inner, error = inner.atWord name ∧
          ((∃ sequel u frame body v w, start operation s = .ok sequel u ∧
              sequel.Calls call u frame body v ∧ call frame body v = .error inner w) ∨
            ∃ next u, invoke call operation s = .ok (some next) u ∧
              execute call next u = .error inner t)) ∧
    (operation = .define ∨ operation = .addAlias →
      ∀ error t, execute call name s = .error error t → t.dictionary = s.dictionary) := by
  refine ⟨?_, ?_, ?_⟩
  · intro stack hstack hs
    rw [← stack.height_eq] at hs ⊢
    have hi : invoke call operation s =
        .error { kind := .stackUnderflow operation.operands stack.height } s := by
      rw [invoke_eq]
      exact bind_of_error (start_of_short hstack hs)
    exact execute_primitive_error hl hi
  · intro henough error t needed available hr hkind
    have hunder : error.kind.IsUnderflow := by
      rw [hkind]
      trivial
    have hheight : ∀ stack, s.operandStack? operation = some stack →
        operation.operands ≤ stack.height := by
      intro stack hstack
      rw [stack.height_eq]
      exact henough stack hstack
    obtain ⟨inner, rfl, hi | hnext⟩ := execute_primitive_eq_error hl hr
    · exact ⟨inner, rfl, .inl (calls_of_shortage hheight hi hunder)⟩
    · exact ⟨inner, rfl, .inr hnext⟩
  · intro ho error t hr
    obtain ⟨inner, -, hi | ⟨next, u, hi, -⟩⟩ := execute_primitive_eq_error hl hr
    · exact dictionary_of_binding_error ho hi
    · -- these two name no word to go on with
      have hnone : some next = none := by
        rcases ho with rfl | rfl <;> exact (only_eq_ok.1 hi).2
      cases hnone

/-- `swap` does not touch a single value. The shortage that `apply` reports is that of a body which
finds nothing to take off. -/
theorem shortage_of_swap_and_body :
    (let s := operandsSession [.reference "a"]
    execute (callWithin s.room) "swap" s =
      .error { kind := .stackUnderflow 2 1, word := some "swap" } s) ∧
    (let s := operandsSession [.quotation dropBody]
    ∃ inner sequel u frame body v w, inner.kind = .stackUnderflow 1 0 ∧
      start .apply s = .ok sequel u ∧ sequel.Calls (callWithin s.room) u frame body v ∧
      callWithin s.room frame body v = .error inner w) := by
  constructor
  · intro s
    have hl : s.dictionary.lookup? "swap" = some (.primitive .swap) := by decide +kernel
    exact (operands_checked (callWithin s.room) hl).1 s.stack rfl (by decide)
  · intro s
    have hl : s.dictionary.lookup? "apply" = some (.primitive .apply) := by decide +kernel
    have hpop : s.dictionary.lookup? "pop" = some (.primitive .drop) := by decide +kernel
    have hbody : callWithin s.room Primitive.apply.name dropBody (s.dropped 1) =
        .error { kind := .stackUnderflow 1 0, word := some "pop",
                 trace := [Primitive.apply.name] } (s.dropped 1) := by
      have hdrop : execute (callWithin 999) "pop" { s.dropped 1 with depth := 1 } =
          .error { kind := .stackUnderflow 1 0, word := some "pop" }
            { s.dropped 1 with depth := 1 } :=
        execute_primitive_error (s := { s.dropped 1 with depth := 1 }) hpop rfl
      rw [← run_single _ _ ⟨1, 1⟩] at hdrop
      exact inFrame_of_error hdrop
    have hi : invoke (callWithin s.room) .apply s =
        .error { kind := .stackUnderflow 1 0, word := some "pop",
                 trace := [Primitive.apply.name] } (s.dropped 1) := by
      have hp : onStack Stack.pop s = .ok (.quotation dropBody) (s.dropped 1) := rfl
      rw [invoke, apply, bind_of_ok hp]
      exact bind_of_error hbody
    have hx := execute_primitive_error hl hi
    obtain ⟨inner, he, hcase⟩ := (operands_checked (callWithin s.room) hl).2.1
      (fun stack hs => by cases hs; decide) _ _ 1 0 hx rfl
    rcases hcase with ⟨sequel, u, frame, body, v, w, hstart, hcalls, hfail⟩ | ⟨next, u, hnext, -⟩
    · have hkind : inner.kind = .stackUnderflow 1 0 := (congrArg EvalError.kind he).symm
      exact ⟨inner, sequel, u, frame, body, v, w, hkind, hstart, hcalls, hfail⟩
    · cases hi.symm.trans hnext

end StackCalc
