import StackCalc.Proofs.Moments
import StackCalc.Proofs.Safety

/-!
What primitives do by themselves. They leave the settings and the depth of the session alone, and
its streams too unless they read or write; what the session stores goes on meeting whatever standard
it has met. Their errors name no word and note no frame; before a body has run they blame no limit
and reject no body.
-/
namespace StackCalc

/-- A standard for all that a session stores. What words build meets it if its parts do. -/
structure Standard where
  value : Value → Prop
  dictionary : Dictionary → Prop
  number (x : Float) : value (.number x)
  sequence {items : List Value} : value (.sequence items) ↔ ∀ item ∈ items, value item
  body {d : Dictionary} {name : String} {body : List Token} : dictionary d →
    d.lookup? name = some (.user body) → value (.quotation body)
  define {d : Dictionary} {name : String} {body : List Token} : dictionary d →
    value (.reference name) → value (.quotation body) → dictionary (d.define name (.user body))
  addAlias {d e : Dictionary} {name source : String} : dictionary d → value (.reference name) →
    d.addAlias name source = .ok e → dictionary e

/-- The standard that everything meets. -/
def Standard.any : Standard where
  value _ := True
  dictionary _ := True
  number _ := trivial
  sequence := ⟨fun _ _ _ => trivial, fun _ => trivial⟩
  body _ _ := trivial
  define _ _ _ := trivial
  addAlias _ _ _ := trivial

/-- The standard that `P` holds of the tokens of all quotations and definitions. -/
def Standard.ofBodies (P : List Token → Prop) : Standard where
  value v := ∀ body, (Value.quotation body).Within v → P body
  dictionary d := ∀ name body, d.lookup? name = some (.user body) → P body
  number x := by
    rintro body ⟨⟩
  sequence := by
    intro items
    constructor
    · intro h item hi body hw
      exact h body (.item hi hw)
    · rintro h body (_ | ⟨hi, hw⟩)
      exact h _ hi body hw
  body := by
    rintro d name body hd hl _ ⟨⟩
    exact hd name body hl
  define := by
    intro d name body hd _ hb word tokens hl
    rw [Dictionary.lookup?_define] at hl
    split at hl
    · cases hl
      exact hb _ (.self _)
    · exact hd word tokens hl
  addAlias := by
    intro d e name source hd _ ha word tokens hl
    rw [Dictionary.lookup?_addAlias ha] at hl
    split at hl
    · exact hd source tokens hl
    · exact hd word tokens hl

theorem Standard.value_ofBodies_quotation {P : List Token → Prop} {body : List Token} :
    (ofBodies P).value (.quotation body) ↔ P body := by
  constructor
  · intro h
    exact h body (.self _)
  · rintro h _ ⟨⟩
    exact h

def Stack.Meets (S : Standard) (s : Stack) : Prop :=
  ∀ v ∈ s.values, S.value v

structure Session.Meets (S : Standard) (s : Session) : Prop where
  stack : s.stack.Meets S
  enclosing : ∀ outer ∈ s.enclosing, outer.Meets S
  dictionary : S.dictionary s.dictionary

theorem Session.meets_any (s : Session) : s.Meets .any :=
  ⟨fun _ _ => trivial, fun _ _ _ _ => trivial, trivial⟩

namespace Session.Meets
variable {S : Standard} {s : Session}

theorem pushed (h : s.Meets S) {value : Value} (hv : S.value value) : (s.pushed value).Meets S :=
  { h with stack := List.forall_mem_cons.2 ⟨hv, h.stack⟩ }

theorem scopeEntered (h : s.Meets S) : (Eval.scopeEntered s).Meets S where
  stack := List.forall_mem_nil _
  enclosing := List.forall_mem_cons.2 ⟨h.stack, h.enclosing⟩
  dictionary := h.dictionary

theorem scopeLeft (h : s.Meets S) : (Eval.scopeLeft s).Meets S where
  stack := by
    rw [Eval.scopeLeft]
    cases he : s.enclosing with
    | nil => exact List.forall_mem_nil _
    | cons outer rest => exact h.enclosing outer (by rw [he]; exact List.mem_cons_self)
  enclosing := fun outer ho => h.enclosing outer (List.mem_of_mem_tail ho)
  dictionary := h.dictionary

end Session.Meets

/-- `t` has what `s` has of the host: the same input unless that may be read, and the same output
unless that may be written to. -/
structure Session.Beside (reads writes : Prop) (s t : Session) : Prop where
  settings : t.settings = s.settings
  depth : t.depth = s.depth
  input : ¬ reads → t.input = s.input
  output : ¬ writes → t.output = s.output

/-- What a primitive fails with by itself: it refuses no call and rejects no body. -/
def ErrorKind.IsOwn : ErrorKind → Prop
  | .recursionLimit _ | .arity _ _ => False
  | _ => True

/-- The error as a primitive raises it, of one of the kinds `K`: what is around the primitive has
added nothing yet. -/
structure EvalError.Fresh (K : ErrorKind → Prop) (error : EvalError) : Prop where
  word : error.word = none
  trace : error.trace = []
  kind : K error.kind

/-- An operation that keeps to the standard `S` and returns what satisfies `P`. -/
def OpKeeps {α : Type} (S : Standard) (P : α → Prop) (op : Stack.Op α) : Prop :=
  ∀ s : Stack, s.Meets S → Ends (fun a t => P a ∧ t.Meets S)
    (fun kind t => kind.IsOwn ∧ t.Meets S) (op s)

/-- A computation that enters nothing: it keeps to the standard `S`, returns what satisfies `P` and
fails with the kinds `K`, and of the host it changes at most the input, if it reads, and the output,
if it writes. -/
def Plain {α : Type} (S : Standard) (reads writes : Prop) (K : ErrorKind → Prop) (P : α → Prop)
    (x : Eval α) : Prop :=
  ∀ s : Session, s.Meets S → Ends (fun a t => P a ∧ t.Meets S ∧ s.Beside reads writes t)
    (fun error t => error.Fresh K ∧ t.Meets S ∧ s.Beside reads writes t) (x s)

namespace Session.Beside
variable {reads writes : Prop} {s t u : Session}

theorem refl (s : Session) : s.Beside reads writes s := ⟨rfl, rfl, fun _ => rfl, fun _ => rfl⟩

theorem trans (h : s.Beside reads writes t) (h' : t.Beside reads writes u) :
    s.Beside reads writes u where
  settings := h'.settings.trans h.settings
  depth := h'.depth.trans h.depth
  input hr := (h'.input hr).trans (h.input hr)
  output hw := (h'.output hw).trans (h.output hw)

end Session.Beside

theorem ErrorKind.IsOwn.ne_recursionLimit {kind : ErrorKind} (h : kind.IsOwn) (limit : Nat) :
    kind ≠ .recursionLimit limit := by
  rintro rfl
  exact h

theorem ErrorKind.IsOwn.ne_arity {kind : ErrorKind} (h : kind.IsOwn) (expected found : Nat) :
    kind ≠ .arity expected found := by
  rintro rfl
  exact h

theorem EvalError.fresh_of_kind {K : ErrorKind → Prop} {kind : ErrorKind} (h : K kind) :
    Fresh K { kind } :=
  ⟨rfl, rfl, h⟩

namespace OpKeeps
variable {α β : Type} {S : Standard} {P : α → Prop} {Q : β → Prop}

theorem pure {a : α} (h : P a) : OpKeeps S P (Pure.pure a) :=
  fun _ hs => .ok ⟨h, hs⟩

theorem throw {kind : ErrorKind} (h : kind.IsOwn) :
    OpKeeps S P (MonadExcept.throw kind : Stack.Op α) :=
  fun _ hs => .error ⟨h, hs⟩

theorem bind {op : Stack.Op α} {next : α → Stack.Op β} (ho : OpKeeps S P op)
    (hn : ∀ a, P a → OpKeeps S Q (next a)) : OpKeeps S Q (op >>= next) :=
  fun s hs => (ho s hs).bind fun a t h => hn a h.1 t h.2

theorem require (needed : Nat) : OpKeeps S (fun _ => True) (Stack.require needed) := by
  intro s hs
  rw [Stack.require]
  split
  · exact .error ⟨trivial, hs⟩
  · exact .ok ⟨trivial, hs⟩

theorem pop : OpKeeps S S.value Stack.pop := by
  intro s hs
  cases hv : s.values with
  | nil =>
    rw [Stack.pop_of_nil hv]
    exact .error ⟨trivial, hs⟩
  | cons value rest =>
    obtain ⟨t, hp, ht, -⟩ := Stack.pop_of_cons hv
    rw [hp]
    rw [Stack.Meets, hv] at hs
    refine .ok ⟨hs value List.mem_cons_self, fun v hm => ?_⟩
    exact hs v (List.mem_cons_of_mem _ (ht ▸ hm))

theorem push {value : Value} (h : S.value value) :
    OpKeeps S (fun _ => True) (Stack.push value) :=
  fun _ hs => .ok ⟨trivial, List.forall_mem_cons.2 ⟨h, hs⟩⟩

theorem copyFromTop (places : Nat) : OpKeeps S (fun _ => True) (Stack.copyFromTop places) := by
  intro s hs
  by_cases hp : places < s.values.length
  · rw [Stack.copyFromTop_of_lt hp]
    exact push (hs _ (List.getElem_mem hp)) s hs
  · rw [Stack.copyFromTop_of_short (by rw [s.height_eq]; omega)]
    exact .error ⟨trivial, hs⟩

theorem rotate (count : Nat) : OpKeeps S (fun _ => True) (Stack.rotate count) := by
  intro s hs
  rw [Stack.rotate]
  split
  · exact .error ⟨trivial, hs⟩
  · exact .ok ⟨trivial, fun v hv => hs v (Stack.mem_of_mem_bringToFront hv)⟩

theorem popNumber : OpKeeps S (fun _ => True) Stack.popNumber :=
  bind pop fun value _ => by
    cases value with
    | number value => exact pure trivial
    | _ => exact throw trivial

theorem popSequence : OpKeeps S (fun items => ∀ item ∈ items, S.value item) Stack.popSequence :=
  bind pop fun value hv => by
    cases value with
    | sequence items => exact pure (S.sequence.1 hv)
    | _ => exact throw trivial

theorem popQuotation : OpKeeps S (fun body => S.value (.quotation body)) Stack.popQuotation :=
  bind pop fun value hv => by
    cases value with
    | quotation body => exact pure hv
    | _ => exact throw trivial

theorem popReference : OpKeeps S (fun name => S.value (.reference name)) Stack.popReference :=
  bind pop fun value hv => by
    cases value with
    | reference name => exact pure hv
    | _ => exact throw trivial

theorem popNumbers : OpKeeps S (fun _ => True) Stack.popNumbers :=
  bind (require 2) fun _ _ => bind popNumber fun _ _ => bind popNumber fun _ _ => pure trivial

theorem popCount : OpKeeps S (fun _ => True) Stack.popCount :=
  bind popNumber fun value _ => by
    cases Arithmetic.count? value with
    | some count => exact pure trivial
    | none => exact throw trivial

theorem popSequenceBody : OpKeeps S (fun operands => (∀ item ∈ operands.1, S.value item) ∧
    S.value (.quotation operands.2)) Stack.popSequenceBody :=
  bind (require 2) fun _ _ => bind popQuotation fun _ hb => bind popSequence fun _ hi =>
    pure ⟨hi, hb⟩

theorem popSequenceStartBody : OpKeeps S (fun operands => (∀ item ∈ operands.1, S.value item) ∧
    S.value operands.2.1 ∧ S.value (.quotation operands.2.2)) Stack.popSequenceStartBody :=
  bind (require 3) fun _ _ => bind popQuotation fun _ hb => bind pop fun _ hv =>
    bind popSequence fun _ hi => pure ⟨hi, hv, hb⟩

end OpKeeps

/-- The sequel of a primitive called `name`: a body is called under that name, and all that the
sequel holds meets the standard. -/
def Sequel.Of (S : Standard) (name : String) : Sequel → Prop
  | .finished | .word _ => True
  | .call frame body | .again frame body _ => frame = name ∧ S.value (.quotation body)
  | .gather loop => loop.frame = name ∧ S.value (.quotation loop.body) ∧
      S.value loop.harvest.yield ∧ ∀ item ∈ loop.items, S.value item

namespace Plain

open ErrorKind (IsOwn)

variable {α β : Type} {S : Standard} {reads writes : Prop} {K : ErrorKind → Prop}
  {P : α → Prop} {Q : β → Prop}

theorem pure {a : α} (h : P a) : Plain S reads writes K P (Pure.pure a) :=
  fun s hs => .ok ⟨h, hs, .refl s⟩

theorem fail {kind : ErrorKind} (h : K kind) : Plain S reads writes K P (Eval.fail kind) :=
  fun s hs => .error ⟨EvalError.fresh_of_kind h, hs, .refl s⟩

theorem of_ok {x : Eval α} (hx : Plain S reads writes K P x) {s t : Session} {a : α}
    (hs : s.Meets S) (h : x s = .ok a t) : P a ∧ t.Meets S ∧ s.Beside reads writes t := by
  have hr := hx s hs
  rw [h] at hr
  cases hr with
  | ok ha => exact ha

theorem of_error {x : Eval α} (hx : Plain S reads writes K P x) {s t : Session} {error : EvalError}
    (hs : s.Meets S) (h : x s = .error error t) :
    error.Fresh K ∧ t.Meets S ∧ s.Beside reads writes t := by
  have hr := hx s hs
  rw [h] at hr
  cases hr with
  | error he => exact he

theorem bind {x : Eval α} {f : α → Eval β} (hx : Plain S reads writes K P x)
    (hf : ∀ a, P a → Plain S reads writes K Q (f a)) : Plain S reads writes K Q (x >>= f) := by
  intro s hs
  cases h : x s with
  | ok a t =>
    rw [bind_of_ok h]
    obtain ⟨ha, ht, hst⟩ := hx.of_ok hs h
    have hr := hf a ha t ht
    generalize f a t = r at hr
    cases hr with
    | ok h => exact .ok ⟨h.1, h.2.1, hst.trans h.2.2⟩
    | error h => exact .error ⟨h.1, h.2.1, hst.trans h.2.2⟩
  | error error t =>
    rw [bind_of_error h]
    exact .error (hx.of_error hs h)

theorem beside {x : Eval α} (hx : Plain .any reads writes K P x) (s : Session) :
    s.Beside reads writes (finalState (x s)) := by
  have hr := hx s s.meets_any
  generalize x s = r at hr
  cases hr with
  | ok ha => exact ha.2.2
  | error he => exact he.2.2

theorem mono {K' : ErrorKind → Prop} {x : Eval α} (hx : Plain S reads writes K P x)
    (h : ∀ kind, K kind → K' kind) : Plain S reads writes K' P x :=
  fun s hs => (hx s hs).mono fun _ _ he => ⟨⟨he.1.word, he.1.trace, h _ he.1.kind⟩, he.2⟩

theorem onStack {op : Stack.Op α} (ho : OpKeeps S P op) :
    Plain S reads writes IsOwn P (Eval.onStack op) := by
  intro s hs
  have hr := ho s.stack hs.stack
  rw [Eval.onStack]
  generalize op s.stack = r at hr
  cases hr with
  | ok h => exact .ok ⟨h.1, { hs with stack := h.2 }, rfl, rfl, fun _ => rfl, fun _ => rfl⟩
  | error h =>
    exact .error ⟨EvalError.fresh_of_kind h.1, { hs with stack := h.2 }, rfl, rfl, fun _ => rfl,
      fun _ => rfl⟩

theorem push {value : Value} (h : S.value value) :
    Plain S reads writes IsOwn (fun _ => True) (Eval.push value) :=
  onStack (.push h)

theorem height : Plain S reads writes K (fun _ => True) Eval.height :=
  fun s hs => .ok ⟨trivial, hs, .refl s⟩

theorem only {act : Eval Unit} (h : Plain S reads writes K (fun _ => True) act) :
    Plain S reads writes K (fun _ => True) (Eval.only act) :=
  bind h fun _ _ => pure trivial

/-! Words that run no bodies. -/

theorem binary (f : Float → Float → Float) :
    Plain S reads writes IsOwn (fun _ => True) (Eval.binary f) :=
  bind (onStack .popNumbers) fun _ _ => push (S.number _)

theorem binaryNonzero (f : Float → Float → Float) :
    Plain S reads writes IsOwn (fun _ => True) (Eval.binaryNonzero f) := by
  refine bind (onStack .popNumbers) ?_
  rintro ⟨a, b⟩ -
  simp only
  split
  · exact fail trivial
  · exact push (S.number _)

theorem define : Plain S reads writes IsOwn (fun _ => True) Eval.define := by
  refine bind (P := fun operands => S.value (.reference operands.1) ∧
    S.value (.quotation operands.2)) (onStack ?_) ?_
  · exact .bind (.require 2) fun _ _ => .bind .popQuotation fun _ hb =>
      .bind .popReference fun _ hn => .pure ⟨hn, hb⟩
  · rintro ⟨name, body⟩ ⟨hn, hb⟩ s hs
    have hd := S.define hs.dictionary hn hb
    exact .ok ⟨trivial, { hs with dictionary := hd }, rfl, rfl, fun _ => rfl, fun _ => rfl⟩

theorem addAlias : Plain S reads writes IsOwn (fun _ => True) Eval.addAlias := by
  refine bind (P := fun operands => S.value (.reference operands.1)) (onStack ?_) ?_
  · exact .bind (.require 2) fun _ _ => .bind .popReference fun _ _ =>
      .bind .popReference fun _ hn => .pure hn
  · rintro ⟨name, source⟩ hn s hs
    simp only [get_bind_apply]
    cases ha : s.dictionary.addAlias name source with
    | ok dictionary =>
      have hd := S.addAlias hs.dictionary hn ha
      exact .ok ⟨trivial, { hs with dictionary := hd }, rfl, rfl, fun _ => rfl, fun _ => rfl⟩
    | error kind =>
      rw [Dictionary.addAlias] at ha
      split at ha
      next =>
        cases ha
        exact .error ⟨EvalError.fresh_of_kind trivial, hs, .refl s⟩
      next => split at ha <;> cases ha

theorem length : Plain S reads writes IsOwn (fun _ => True) Eval.length :=
  bind (onStack .popSequence) fun _ _ => push (S.number _)

theorem isOwn_of_total {items : List Value} {start : Float} {kind : ErrorKind}
    (h : Eval.total start items = .error kind) : kind.IsOwn := by
  induction items generalizing start with
  | nil => cases h
  | cons item rest ih =>
    rw [Eval.total] at h
    split at h
    next => exact ih h
    next =>
      cases h
      trivial

theorem sum : Plain S reads writes IsOwn (fun _ => True) Eval.sum := by
  refine bind (onStack .popSequence) fun items _ => ?_
  cases ht : Eval.total 0 items with
  | ok value => exact push (S.number _)
  | error kind => exact fail (isOwn_of_total ht)

theorem draw : Plain S reads writes IsOwn (fun _ => True) Eval.draw := by
  intro s hs
  cases he : s.enclosing with
  | nil =>
    rw [Eval.draw_outside he]
    exact .ok ⟨trivial, hs, .refl s⟩
  | cons outer rest =>
    have houter : outer.Meets S := hs.enclosing outer (by rw [he]; exact List.mem_cons_self)
    have hr := OpKeeps.pop outer houter
    simp only [Eval.draw, he]
    generalize Stack.pop outer = r at hr
    have hrest (t : Stack) (ht : t.Meets S) :
        Session.Meets S { s with enclosing := t :: rest } := by
      refine ⟨hs.stack, List.forall_mem_cons.2 ⟨ht, fun inner hi => hs.enclosing inner ?_⟩,
        hs.dictionary⟩
      rw [he]
      exact List.mem_cons_of_mem _ hi
    cases hr with
    | @ok value t h =>
      have hstack := List.forall_mem_cons.2 ⟨h.1, hs.stack⟩
      exact .ok ⟨trivial, { hrest t h.2 with stack := hstack }, rfl, rfl, fun _ => rfl,
        fun _ => rfl⟩
    | @error kind t h =>
      exact .error ⟨EvalError.fresh_of_kind h.1, hrest t h.2, rfl, rfl, fun _ => rfl, fun _ => rfl⟩

theorem isOwn_of_lineNumber {line : List UInt8} {kind : ErrorKind}
    (h : Eval.lineNumber? line = .error kind) : kind.IsOwn := by
  simp only [Eval.lineNumber?] at h
  split at h
  · cases h
    trivial
  · split at h <;> cases h
    trivial

theorem readNumber (hr : reads) :
    Plain S reads writes IsOwn (fun _ => True) Eval.readNumber := by
  intro s hs
  simp only [Eval.readNumber, get_bind_apply]
  cases s.input.isEmpty with
  | true => exact .error ⟨EvalError.fresh_of_kind trivial, hs, .refl s⟩
  | false =>
    simp only [Bool.false_eq_true, if_false, modify_bind_apply]
    cases hl : Eval.lineNumber? (Input.splitLine s.input).1 with
    | ok value =>
      have hv := List.forall_mem_cons.2 ⟨S.number value, hs.stack⟩
      exact .ok ⟨trivial, { hs with stack := hv }, rfl, rfl, absurd hr, fun _ => rfl⟩
    | error kind =>
      exact .error ⟨EvalError.fresh_of_kind (isOwn_of_lineNumber hl), { hs with }, rfl, rfl,
        absurd hr, fun _ => rfl⟩

theorem print (hw : writes) : Plain S reads writes IsOwn (fun _ => True) Eval.print := by
  refine bind (onStack .pop) fun value _ s hs => ?_
  cases Output.writeLine value.render s.output with
  | ok _ output => exact .ok ⟨trivial, { hs with }, rfl, rfl, fun _ => rfl, absurd hw⟩
  | error fault output =>
    exact .error ⟨EvalError.fresh_of_kind trivial, { hs with }, rfl, rfl,
      fun _ => rfl, absurd hw⟩

/-! Combinators, as far as they go before their bodies run. -/

/-- A primitive that calls nothing is finished once it has been invoked. -/
theorem finished {name : String} {act : Eval Unit}
    (h : Plain S reads writes IsOwn (fun _ => True) act) :
    Plain S reads writes IsOwn (Sequel.Of S name) (do
      let _ ← Eval.only act
      return .finished) :=
  bind (only h) fun _ _ => pure trivial

theorem start (operation : Primitive) :
    Plain S (operation = .readNumber) (operation = .print) IsOwn (Sequel.Of S operation.name)
      (Eval.start operation) := by
  cases operation with
  | add | subtract | multiply | power | logarithm | larger | smaller | compare =>
    exact finished (binary _)
  | divide | remainder => exact finished (binaryNonzero _)
  | copy | copySecond => exact finished (onStack (.copyFromTop _))
  | swap | rotate3 => exact finished (onStack (.rotate _))
  | drop => exact finished (bind (onStack .pop) fun _ _ => pure trivial)
  | define => exact finished define
  | addAlias => exact finished addAlias
  | map =>
    refine bind (onStack .popSequenceBody) ?_
    rintro ⟨items, body⟩ ⟨hi, hb⟩
    exact bind height fun _ _ => pure ⟨rfl, hb, S.sequence.2 (List.forall_mem_nil _), hi⟩
  | filter =>
    refine bind (onStack .popSequenceBody) ?_
    rintro ⟨items, body⟩ ⟨hi, hb⟩
    exact bind height fun _ _ => pure ⟨rfl, hb, S.sequence.2 (List.forall_mem_nil _), hi⟩
  | fold =>
    refine bind (onStack .popSequenceStartBody) ?_
    rintro ⟨items, first, body⟩ ⟨hi, hf, hb⟩
    exact bind height fun _ _ => pure ⟨rfl, hb, hf, hi⟩
  | fold1 =>
    refine bind (onStack .popSequenceBody) ?_
    rintro ⟨items, body⟩ ⟨hi, hb⟩
    cases items with
    | nil => exact fail trivial
    | cons first rest =>
      obtain ⟨hf, hi⟩ := List.forall_mem_cons.1 hi
      exact bind height fun _ _ => pure ⟨rfl, hb, hf, hi⟩
  | iterate =>
    refine bind (P := fun operands => S.value (.quotation operands.2)) (onStack ?_) ?_
    · exact .bind (.require 2) fun _ _ => .bind .popCount fun _ _ =>
        .bind .popQuotation fun _ hb => .pure hb
    · rintro ⟨count, body⟩ hb
      exact pure ⟨rfl, hb⟩
  | choose =>
    refine bind (P := fun operands => S.value operands.2.1 ∧ S.value operands.2.2) (onStack ?_) ?_
    · exact .bind (.require 3) fun _ _ => .bind .pop fun _ hf => .bind .pop fun _ ht =>
        .bind .popNumber fun _ _ => .pure ⟨ht, hf⟩
    · rintro ⟨condition, whenTrue, whenFalse⟩ ⟨ht, hf⟩
      have hv : S.value (if condition != 0 then whenTrue else whenFalse) := by
        split
        · exact ht
        · exact hf
      simp only
      generalize (if condition != 0 then whenTrue else whenFalse) = value at hv
      cases value with
      | quotation body => exact pure ⟨rfl, hv⟩
      | _ => exact bind (push hv) fun _ _ => pure trivial
  | apply =>
    refine bind (onStack .pop) fun value hv => ?_
    cases value with
    | quotation body => exact pure ⟨rfl, hv⟩
    | reference name => exact pure trivial
    | _ => exact fail trivial
  | length => exact finished length
  | sum => exact finished sum
  | draw => exact finished draw
  | readNumber => exact finished (readNumber rfl)
  | print => exact finished (print rfl)

theorem accept (low base : Nat) :
    Plain S False False (fun kind => ∀ limit, kind ≠ .recursionLimit limit) S.value
      (Eval.accept low base) := by
  refine bind height fun left _ => ?_
  split
  · exact fail (by rintro limit ⟨⟩)
  · exact (onStack .pop).mono fun _ => IsOwn.ne_recursionLimit

end Plain

end StackCalc
