import StackCalc.Evaluation.Run
import StackCalc.Proofs.WellFormed

/-!
Evaluations of well-formed sessions. They leave the session well formed, and a program that the
reader made never meets a bracket without a partner: the only text that an evaluation can find fault
with is a line of input. Each error names the word that failed.
-/
namespace StackCalc

open Token (IsName IsProgram)

/-- The error finds fault with a text. -/
def ErrorKind.IsParse : ErrorKind → Prop
  | .parse _ => True
  | _ => False

/-- The error names the word that failed. Only the primitive that reads numbers finds fault with a
text, which is a line of input. -/
structure Located (error : EvalError) (d : Dictionary) : Prop where
  word : ∃ word, error.word = some word
  input : ∀ fault, error.kind = .parse fault → ∃ word line, error.word = some word ∧
    d.lookup? word = some (.primitive .readNumber) ∧ fault = .notANumber line

/-- The error is located, or it blames no text and the word that is running will add its name. -/
inductive Raised (error : EvalError) (d : Dictionary) : Prop where
  | located : Located error d → Raised error d
  | unnamed : error.word = none → ¬ error.kind.IsParse → Raised error d

theorem Located.of_word {error : EvalError} {d : Dictionary} {name : String}
    (hw : error.word = some name) (hk : ¬ error.kind.IsParse) : Located error d := by
  refine ⟨⟨name, hw⟩, fun fault hf => absurd ?_ hk⟩
  rw [hf]
  trivial

theorem Raised.atWord {error : EvalError} {d : Dictionary} (h : Raised error d) (name : String) :
    Located (error.atWord name) d := by
  cases h with
  | located h =>
    obtain ⟨word, hw⟩ := h.word
    have heq : error.atWord name = error := by
      rw [EvalError.atWord, hw, Option.some_or, ← hw]
    rwa [heq]
  | unnamed hw hk =>
    have hname : (error.atWord name).word = some name := by
      rw [EvalError.atWord, hw, Option.none_or]
    exact .of_word hname hk

/-- A result and the state that it leaves, if it is a success, or an error and the state that it
leaves. -/
inductive Ends {ε σ α : Type} (P : α → σ → Prop) (E : ε → σ → Prop) :
    EStateM.Result ε σ α → Prop where
  | ok {a : α} {t : σ} : P a t → Ends P E (.ok a t)
  | error {e : ε} {t : σ} : E e t → Ends P E (.error e t)

namespace Ends
variable {ε σ α β : Type} {P : α → σ → Prop} {Q : β → σ → Prop} {E E' : ε → σ → Prop}

theorem bind {x : EStateM ε σ α} {f : α → EStateM ε σ β} {s : σ} (hx : Ends P E (x s))
    (hf : ∀ a t, P a t → Ends Q E (f a t)) : Ends Q E ((x >>= f) s) := by
  cases hr : x s with
  | ok a t =>
    rw [hr] at hx
    rw [bind_of_ok hr]
    cases hx with
    | ok ha => exact hf a t ha
  | error e t =>
    rw [hr] at hx
    rw [bind_of_error hr]
    cases hx with
    | error he => exact .error he

theorem mono {r : EStateM.Result ε σ α} (h : Ends P E r) (he : ∀ e t, E e t → E' e t) :
    Ends P E' r := by
  cases h with
  | ok ha => exact .ok ha
  | error hr => exact .error (he _ _ hr)

end Ends

/-- An operation that keeps the stack well formed, returns what satisfies `P` and blames no text. -/
def OpSafe {α : Type} (P : α → Prop) (op : Stack.Op α) : Prop :=
  ∀ s : Stack, s.WellFormed → Ends (fun a t => P a ∧ t.WellFormed)
    (fun kind t => ¬ kind.IsParse ∧ t.WellFormed) (op s)

/-- A result that satisfies `P` or an error that satisfies `E`, and a well-formed session. -/
abbrev SafeResult {α : Type} (E : EvalError → Dictionary → Prop) (P : α → Prop) :
    EStateM.Result EvalError Session α → Prop :=
  Ends (fun a t => P a ∧ t.WellFormed) fun error t => E error t.dictionary ∧ t.WellFormed

/-- A computation that keeps the session well formed, returns what satisfies `P`, and fails with
errors that satisfy `E`. -/
def Safe {α : Type} (E : EvalError → Dictionary → Prop) (P : α → Prop) (x : Eval α) : Prop :=
  ∀ s : Session, s.WellFormed → SafeResult E P (x s)

/-- What is unnamed takes the name of the word that is executed. -/
theorem SafeResult.nameWord {P : Unit → Prop} {r : EStateM.Result EvalError Session Unit}
    (h : SafeResult Raised P r) (name : String) : SafeResult Located P (Eval.nameWord name r) := by
  cases h with
  | ok h => exact .ok h
  | error h => exact .error ⟨h.1.atWord name, h.2⟩

namespace OpSafe
variable {α β : Type} {P : α → Prop} {Q : β → Prop}

theorem pure {a : α} (h : P a) : OpSafe P (Pure.pure a) :=
  fun _ hs => .ok ⟨h, hs⟩

theorem throw {kind : ErrorKind} (h : ¬ kind.IsParse) :
    OpSafe P (MonadExcept.throw kind : Stack.Op α) :=
  fun _ hs => .error ⟨h, hs⟩

theorem bind {op : Stack.Op α} {next : α → Stack.Op β} (ho : OpSafe P op)
    (hn : ∀ a, P a → OpSafe Q (next a)) : OpSafe Q (op >>= next) :=
  fun s hs => (ho s hs).bind fun a t h => hn a h.1 t h.2

theorem require (needed : Nat) : OpSafe (fun _ => True) (Stack.require needed) := by
  intro s hs
  rw [Stack.require]
  split
  · exact .error ⟨not_false, hs⟩
  · exact .ok ⟨trivial, hs⟩

theorem pop : OpSafe Value.WellFormed Stack.pop := by
  intro s hs
  cases hv : s.values with
  | nil =>
    rw [Stack.pop_of_nil hv]
    exact .error ⟨not_false, hs⟩
  | cons value rest =>
    obtain ⟨t, hp, -, -⟩ := Stack.pop_of_cons hv
    rw [hp]
    exact .ok (hs.pop hp)

theorem copyFromTop (places : Nat) : OpSafe (fun _ => True) (Stack.copyFromTop places) := by
  intro s hs
  by_cases hp : places < s.values.length
  · rw [Stack.copyFromTop_of_lt hp]
    exact .ok ⟨trivial, hs.pushed (hs _ (List.getElem_mem hp))⟩
  · rw [Stack.copyFromTop_of_short (by rw [s.height_eq]; omega)]
    exact .error ⟨not_false, hs⟩

theorem rotate (count : Nat) : OpSafe (fun _ => True) (Stack.rotate count) := by
  intro s hs
  rw [Stack.rotate]
  split
  · exact .error ⟨not_false, hs⟩
  · exact .ok ⟨trivial, hs.of_subset fun v hv => Stack.mem_of_mem_bringToFront hv⟩

/-! Operands, taken off by kind. -/

theorem popNumber : OpSafe (fun _ => True) Stack.popNumber :=
  bind pop fun value _ => by
    cases value with
    | number value => exact pure trivial
    | _ => exact throw not_false

theorem popSequence : OpSafe (fun items => ∀ item ∈ items, Value.WellFormed item)
    Stack.popSequence :=
  bind pop fun value hv => by
    cases value with
    | sequence items => exact pure (Value.wellFormed_sequence.1 hv)
    | _ => exact throw not_false

theorem popQuotation : OpSafe IsProgram Stack.popQuotation :=
  bind pop fun value hv => by
    cases value with
    | quotation body => exact pure (Value.wellFormed_quotation.1 hv)
    | _ => exact throw not_false

theorem popReference : OpSafe IsName Stack.popReference :=
  bind pop fun value hv => by
    cases value with
    | reference name => exact pure (Value.wellFormed_reference.1 hv)
    | _ => exact throw not_false

theorem popNumbers : OpSafe (fun _ => True) Stack.popNumbers :=
  bind (require 2) fun _ _ => bind popNumber fun _ _ => bind popNumber fun _ _ => pure trivial

theorem popCount : OpSafe (fun _ => True) Stack.popCount :=
  bind popNumber fun value _ => by
    cases Arithmetic.count? value with
    | some count => exact pure trivial
    | none => exact throw not_false

theorem popSequenceBody : OpSafe (fun operands => (∀ item ∈ operands.1, item.WellFormed) ∧
    IsProgram operands.2) Stack.popSequenceBody :=
  bind (require 2) fun _ _ => bind popQuotation fun _ hb => bind popSequence fun _ hi =>
    pure ⟨hi, hb⟩

theorem popSequenceStartBody : OpSafe (fun operands => (∀ item ∈ operands.1, item.WellFormed) ∧
    operands.2.1.WellFormed ∧ IsProgram operands.2.2) Stack.popSequenceStartBody :=
  bind (require 3) fun _ _ => bind popQuotation fun _ hb => bind pop fun _ hv =>
    bind popSequence fun _ hi => pure ⟨hi, hv, hb⟩

end OpSafe

namespace Safe
variable {α β : Type} {P : α → Prop} {Q : β → Prop} {E : EvalError → Dictionary → Prop}

theorem pure {a : α} (h : P a) : Safe E P (Pure.pure a) :=
  fun _ hs => .ok ⟨h, hs⟩

theorem fail {kind : ErrorKind} (h : ¬ kind.IsParse) :
    Safe Raised P (Eval.fail kind) :=
  fun _ hs => .error ⟨.unnamed rfl h, hs⟩

theorem bind {x : Eval α} {f : α → Eval β} (hx : Safe E P x) (hf : ∀ a, P a → Safe E Q (f a)) :
    Safe E Q (x >>= f) :=
  fun s hs => (hx s hs).bind fun a t h => hf a h.1 t h.2

theorem raised {x : Eval α} (hx : Safe Located P x) : Safe Raised P x :=
  fun s hs => (hx s hs).mono fun _ _ h => ⟨.located h.1, h.2⟩

theorem onStack {op : Stack.Op α} (ho : OpSafe P op) : Safe Raised P (Eval.onStack op) := by
  intro s hs
  have hr := ho s.stack hs.stack
  rw [Eval.onStack]
  generalize op s.stack = r at hr
  cases hr with
  | ok h => exact .ok ⟨h.1, { hs with stack := h.2 }⟩
  | error h => exact .error ⟨.unnamed rfl h.1, { hs with stack := h.2 }⟩

theorem push {value : Value} (h : value.WellFormed) : Safe E (fun _ => True) (Eval.push value) :=
  fun _ hs => .ok ⟨trivial, { hs with stack := hs.stack.pushed h }⟩

/-! Words that run no bodies. -/

theorem binary (f : Float → Float → Float) : Safe Raised (fun _ => True) (Eval.binary f) :=
  bind (onStack .popNumbers) fun _ _ => push (Value.wellFormed_number _)

theorem binaryNonzero (f : Float → Float → Float) :
    Safe Raised (fun _ => True) (Eval.binaryNonzero f) := by
  refine bind (onStack .popNumbers) ?_
  rintro ⟨a, b⟩ -
  simp only
  split
  · exact fail not_false
  · exact push (Value.wellFormed_number _)

theorem define : Safe Raised (fun _ => True) Eval.define := by
  refine bind (P := fun operands => IsName operands.1 ∧ IsProgram operands.2) (onStack ?_) ?_
  · exact .bind (.require 2) fun _ _ => .bind .popQuotation fun _ hb =>
      .bind .popReference fun _ hn => .pure ⟨hn, hb⟩
  · rintro ⟨name, body⟩ ⟨hn, hb⟩ s hs
    exact .ok ⟨trivial, { hs with dictionary := hs.dictionary.define hn hb }⟩

theorem addAlias : Safe Raised (fun _ => True) Eval.addAlias := by
  refine bind (P := fun operands => IsName operands.1 ∧ IsName operands.2) (onStack ?_) ?_
  · exact .bind (.require 2) fun _ _ => .bind .popReference fun _ hs =>
      .bind .popReference fun _ hn => .pure ⟨hn, hs⟩
  · rintro ⟨name, source⟩ ⟨hn, -⟩ s hs
    simp only [get_bind_apply]
    cases ha : s.dictionary.addAlias name source with
    | ok dictionary => exact .ok ⟨trivial, { hs with dictionary := hs.dictionary.addAlias hn ha }⟩
    | error kind =>
      rw [Dictionary.addAlias] at ha
      split at ha
      next =>
        cases ha
        exact .error ⟨.unnamed rfl not_false, hs⟩
      next => split at ha <;> cases ha

theorem length : Safe Raised (fun _ => True) Eval.length :=
  bind (onStack .popSequence) fun _ _ => push (Value.wellFormed_number _)

theorem not_isParse_of_total {items : List Value} {start : Float} {kind : ErrorKind}
    (h : Eval.total start items = .error kind) : ¬ kind.IsParse := by
  induction items generalizing start with
  | nil => cases h
  | cons item rest ih =>
    rw [Eval.total] at h
    split at h
    next => exact ih h
    next =>
      cases h
      exact not_false

theorem sum : Safe Raised (fun _ => True) Eval.sum := by
  refine bind (onStack .popSequence) fun items _ => ?_
  cases ht : Eval.total 0 items with
  | ok value => exact push (Value.wellFormed_number _)
  | error kind => exact fail (not_isParse_of_total ht)

theorem draw : Safe Raised (fun _ => True) Eval.draw := by
  intro s hs
  cases he : s.enclosing with
  | nil =>
    rw [Eval.draw_outside he]
    exact .ok ⟨trivial, hs⟩
  | cons outer rest =>
    have houter : outer.WellFormed := hs.enclosing outer (by rw [he]; exact List.mem_cons_self)
    cases hv : outer.values with
    | nil =>
      rw [Eval.draw_of_nil he hv]
      exact .error ⟨.unnamed rfl not_false, hs⟩
    | cons value values =>
      obtain ⟨t, hp, -, -⟩ := Stack.pop_of_cons hv
      obtain ⟨hvalue, ht⟩ := houter.pop hp
      rw [Eval.draw_of_pop he hp]
      refine .ok ⟨trivial, { hs with stack := hs.stack.pushed hvalue, enclosing := ?_ }⟩
      refine List.forall_mem_cons.2 ⟨ht, fun inner hi => hs.enclosing inner ?_⟩
      rw [he]
      exact List.mem_cons_of_mem _ hi

theorem print : Safe Raised (fun _ => True) Eval.print := by
  refine bind (onStack .pop) fun value _ s hs => ?_
  cases Output.writeLine value.render s.output with
  | ok _ output => exact .ok ⟨trivial, { hs with }⟩
  | error fault output => exact .error ⟨.unnamed rfl not_false, { hs with }⟩

/-- What the reading of numbers blames is a line of input, and no word is bound anew. -/
theorem readNumber {s : Session} (hs : s.WellFormed) : Ends (fun _ t => t.WellFormed)
    (fun error t => t.WellFormed ∧ t.dictionary = s.dictionary ∧ error.word = none ∧
      ∀ fault, error.kind = .parse fault → ∃ line, fault = .notANumber line)
    (Eval.readNumber s) := by
  simp only [Eval.readNumber, get_bind_apply]
  cases s.input.isEmpty with
  | true =>
    refine .error ⟨hs, rfl, rfl, ?_⟩
    rintro _ ⟨⟩
  | false =>
    simp only [Bool.false_eq_true, if_false, modify_bind_apply]
    cases hl : Eval.lineNumber? (Input.splitLine s.input).1 with
    | ok value => exact .ok { hs with stack := hs.stack.pushed (Value.wellFormed_number value) }
    | error kind =>
      refine .error ⟨{ hs with }, rfl, rfl, ?_⟩
      rintro fault rfl
      simp only [Eval.lineNumber?] at hl
      split at hl
      · cases hl
      · split at hl <;> cases hl
        exact ⟨_, rfl⟩

/-! Sequences of bodies. -/

section Loops
variable {ι : Type}

theorem mapM {f : ι → Eval β} {items : List ι} (hf : ∀ item ∈ items, Safe E Q (f item)) :
    Safe E (fun results => ∀ result ∈ results, Q result) (items.mapM f) := by
  induction items with
  | nil =>
    rw [List.mapM_nil]
    exact pure (List.forall_mem_nil _)
  | cons item rest ih =>
    obtain ⟨hi, hr⟩ := List.forall_mem_cons.1 hf
    rw [List.mapM_cons]
    exact bind hi fun _ hq => bind (ih hr) fun _ hqs => pure (List.forall_mem_cons.2 ⟨hq, hqs⟩)

theorem foldlM {f : β → ι → Eval β} {items : List ι}
    (hf : ∀ b, Q b → ∀ item ∈ items, Safe E Q (f b item)) {b : β} (hb : Q b) :
    Safe E Q (items.foldlM f b) := by
  induction items generalizing b with
  | nil => exact pure hb
  | cons item rest ih =>
    rw [List.foldlM_cons]
    refine bind (hf b hb item List.mem_cons_self) fun b' hb' => ih (fun c hc next hn => ?_) hb'
    exact hf c hc next (List.mem_cons_of_mem _ hn)

theorem times {act : Eval Unit} (ha : Safe E (fun _ => True) act) (count : Nat) :
    Safe E (fun _ => True) (Eval.times act count) := by
  induction count with
  | zero => exact pure trivial
  | succ count ih => exact bind ha fun _ _ => ih

end Loops

theorem only {act : Eval Unit} (ha : Safe E (fun _ => True) act) :
    Safe E (fun _ => True) (Eval.only act) :=
  bind ha fun _ _ => pure trivial

/-! Changes of scope. They leave the dictionary to the body. -/

theorem height : Safe E (fun _ => True) Eval.height :=
  fun _ hs => .ok ⟨trivial, hs⟩

theorem watching {act : Eval Unit} (ha : Safe E (fun _ => True) act) :
    Safe E (fun _ => True) (Eval.watching act) := by
  intro s hs
  have hr := ha (Eval.watchEntered s) { hs with }
  rw [Eval.watching]
  generalize act (Eval.watchEntered s) = r at hr
  cases hr with
  | ok h => exact .ok ⟨trivial, { h.2 with }⟩
  | error h => exact .error ⟨h.1, { h.2 with }⟩

theorem inFrame (name : String) {act : Eval Unit} (ha : Safe Located (fun _ => True) act) :
    Safe Located (fun _ => True) (Eval.inFrame name act) := by
  intro s hs
  have hr := ha { s with depth := s.depth + 1 } { hs with }
  rw [Eval.inFrame]
  generalize act { s with depth := s.depth + 1 } = r at hr
  cases hr with
  | ok h => exact .ok ⟨trivial, { h.2 with }⟩
  | error h => exact .error ⟨⟨h.1.word, h.1.input⟩, { h.2 with }⟩

theorem scopeLeft {s : Session} (hs : s.WellFormed) : (Eval.scopeLeft s).WellFormed where
  stack := by
    rw [Eval.scopeLeft]
    cases he : s.enclosing with
    | nil => exact Stack.wellFormed_empty
    | cons outer rest => exact hs.enclosing outer (by rw [he]; exact List.mem_cons_self)
  enclosing := fun outer ho => hs.enclosing outer (List.mem_of_mem_tail ho)
  dictionary := hs.dictionary

theorem arrayScope {body : Eval Unit} (hb : Safe E (fun _ => True) body) :
    Safe E (fun _ => True) (Eval.arrayScope body) := by
  intro s hs
  have hr := hb (Eval.scopeEntered s)
    { stack := Stack.wellFormed_empty
      enclosing := List.forall_mem_cons.2 ⟨hs.stack, hs.enclosing⟩
      dictionary := hs.dictionary }
  rw [Eval.arrayScope]
  generalize body (Eval.scopeEntered s) = r at hr
  cases hr with
  | ok h =>
    refine push (Value.wellFormed_sequence.2 fun item hi => ?_) _ (scopeLeft h.2)
    exact h.2.stack item (List.mem_reverse.1 hi)
  | error h => exact .error ⟨h.1, scopeLeft h.2⟩

theorem enclosed (bracket : Bracket) {body : List Token} (hb : IsProgram body)
    {runBody : Eval Unit} (hr : Safe E (fun _ => True) runBody) :
    Safe E (fun _ => True) (Eval.enclosed bracket body runBody) := by
  cases bracket with
  | brace => exact push (Value.wellFormed_quotation.2 hb)
  | square => exact arrayScope hr

/-! Combinators. -/

section Combinators
variable {call : Caller} {frame : String} {body : List Token}

theorem singleResult (hc : Safe Located (fun _ => True) (call frame body)) (base : Nat) :
    Safe Raised Value.WellFormed (Eval.singleResult call frame body base) := by
  refine bind (watching hc.raised) fun low _ => bind height fun left _ => ?_
  split
  · exact fail not_false
  · exact onStack .pop

/-- The word that reads numbers is to blame for the line that it could not read. -/
theorem execute_readNumber {name : String} {s : Session} (hs : s.WellFormed)
    (hl : s.dictionary.lookup? name = some (.primitive .readNumber)) :
    SafeResult Located (fun _ => True) (Eval.execute call name s) := by
  have hr := readNumber hs
  cases hx : Eval.readNumber s with
  | ok _ t =>
    rw [hx] at hr
    have hi : Eval.invoke call .readNumber s = .ok none t := Eval.only_eq_ok.2 ⟨hx, rfl⟩
    rw [Eval.execute_primitive_ok hl hi]
    cases hr with
    | ok ht => exact .ok ⟨trivial, ht⟩
  | error error t =>
    rw [hx] at hr
    have hi : Eval.invoke call .readNumber s = .error error t := bind_of_error hx
    rw [Eval.execute_primitive_error hl hi]
    cases hr with
    | error h =>
      obtain ⟨ht, hd, hw, hk⟩ := h
      have hword : (error.atWord name).word = some name := by
        rw [EvalError.atWord, hw, Option.none_or]
      refine .error ⟨⟨⟨name, hword⟩, fun fault hf => ?_⟩, ht⟩
      obtain ⟨line, rfl⟩ := hk fault hf
      exact ⟨name, line, hword, hd ▸ hl, rfl⟩

variable (hc : ∀ frame body, IsProgram body → Safe Located (fun _ => True) (call frame body))
include hc

theorem map : Safe Raised (fun _ => True) (Eval.map call frame) := by
  refine bind (onStack .popSequenceBody) ?_
  rintro ⟨items, body⟩ ⟨hi, hb⟩
  refine bind height fun base _ => bind (mapM fun item hm => ?_) fun _ hr =>
    push (Value.wellFormed_sequence.2 hr)
  exact bind (push (hi item hm)) fun _ _ => singleResult (hc _ _ hb) base

theorem reduce (hb : IsProgram body) {first : Value} (hf : first.WellFormed) {items : List Value}
    (hi : ∀ item ∈ items, item.WellFormed) :
    Safe Raised Value.WellFormed (Eval.reduce call frame body first items) := by
  refine bind height fun base _ => foldlM (fun accumulator ha item hm => ?_) hf
  exact bind (push ha) fun _ _ => bind (push (hi item hm)) fun _ _ =>
    singleResult (hc _ _ hb) base

theorem fold : Safe Raised (fun _ => True) (Eval.fold call frame) := by
  refine bind (onStack .popSequenceStartBody) ?_
  rintro ⟨items, start, body⟩ ⟨hi, hs, hb⟩
  exact bind (reduce hc hb hs hi) fun _ hv => push hv

theorem fold1 : Safe Raised (fun _ => True) (Eval.fold1 call frame) := by
  refine bind (onStack .popSequenceBody) ?_
  rintro ⟨items, body⟩ ⟨hi, hb⟩
  cases items with
  | nil => exact fail not_false
  | cons first rest =>
    obtain ⟨hf, hr⟩ := List.forall_mem_cons.1 hi
    exact bind (reduce hc hb hf hr) fun _ hv => push hv

theorem filter : Safe Raised (fun _ => True) (Eval.filter call frame) := by
  refine bind (onStack .popSequenceBody) ?_
  rintro ⟨items, body⟩ ⟨hi, hb⟩
  refine bind height fun base _ => bind (Q := fun _ => True)
    (P := fun verdicts => ∀ verdict ∈ verdicts, verdict.1.WellFormed)
    (mapM fun item hm => ?_) fun verdicts hv => push (Value.wellFormed_sequence.2 ?_)
  · exact bind (push (hi item hm)) fun _ _ =>
      bind (singleResult (hc _ _ hb) base) fun _ _ => pure (hi item hm)
  · intro item hm
    obtain ⟨verdict, hv', rfl⟩ := List.mem_map.1 hm
    exact hv verdict (List.mem_of_mem_filter hv')

theorem iterate : Safe Raised (fun _ => True) (Eval.iterate call frame) := by
  refine bind (P := fun operands => IsProgram operands.2) (onStack ?_) ?_
  · exact .bind (.require 2) fun _ _ => .bind .popCount fun _ _ =>
      .bind .popQuotation fun _ hb => .pure hb
  · rintro ⟨count, body⟩ hb
    exact times (hc _ _ hb).raised count

theorem choose : Safe Raised (fun _ => True) (Eval.choose call frame) := by
  refine bind (P := fun operands => operands.2.1.WellFormed ∧ operands.2.2.WellFormed)
    (onStack ?_) ?_
  · exact .bind (.require 3) fun _ _ => .bind .pop fun _ hf => .bind .pop fun _ ht =>
      .bind .popNumber fun _ _ => .pure ⟨ht, hf⟩
  · rintro ⟨condition, whenTrue, whenFalse⟩ ⟨ht, hf⟩
    have hv : (if condition != 0 then whenTrue else whenFalse).WellFormed := by
      split
      · exact ht
      · exact hf
    simp only
    generalize (if condition != 0 then whenTrue else whenFalse) = value at hv
    cases value with
    | quotation body => exact (hc _ _ (Value.wellFormed_quotation.1 hv)).raised
    | _ => exact push hv

theorem apply : Safe Raised (fun _ => True) (Eval.apply call frame) := by
  refine bind (onStack .pop) fun value hv => ?_
  cases value with
  | quotation body => exact only (hc _ _ (Value.wellFormed_quotation.1 hv)).raised
  | reference name => exact pure trivial
  | _ => exact fail not_false

theorem invoke {operation : Primitive} (ho : operation ≠ .readNumber) :
    Safe Raised (fun _ => True) (Eval.invoke call operation) := by
  cases operation with
  | add | subtract | multiply | power | logarithm | larger | smaller | compare =>
    exact only (binary _)
  | divide | remainder => exact only (binaryNonzero _)
  | copy | copySecond => exact only (onStack (.copyFromTop _))
  | swap | rotate3 => exact only (onStack (.rotate _))
  | drop => exact only (bind (onStack .pop) fun _ _ => pure trivial)
  | define => exact only define
  | addAlias => exact only addAlias
  | map => exact only (map hc)
  | fold => exact only (fold hc)
  | fold1 => exact only (fold1 hc)
  | filter => exact only (filter hc)
  | iterate => exact only (iterate hc)
  | choose => exact only (choose hc)
  | apply => exact apply hc
  | length => exact only length
  | sum => exact only sum
  | draw => exact only draw
  | readNumber => exact absurd rfl ho
  | print => exact only print

/-! The evaluator. -/

/-- Executing a word reference that was applied leaves a smaller stack, so the induction is on the
height of the stack. -/
theorem execute_ends (name : String) {s : Session} (hs : s.WellFormed) :
    SafeResult Located (fun _ => True) (Eval.execute call name s) := by
  cases hl : s.dictionary.lookup? name with
  | none =>
    rw [Eval.execute_unknown hl]
    exact .error ⟨.of_word rfl not_false, hs⟩
  | some definition =>
    cases definition with
    | user body =>
      rw [Eval.execute_user hl]
      exact hc name body (hs.dictionary.bodies hl) s hs
    | primitive operation =>
      by_cases ho : operation = .readNumber
      · subst ho
        exact execute_readNumber hs hl
      have hr := invoke hc ho s hs
      cases hi : Eval.invoke call operation s with
      | error error t =>
        rw [hi] at hr
        rw [Eval.execute_primitive_error hl hi]
        cases hr with
        | error h => exact .error ⟨h.1.atWord name, h.2⟩
      | ok next t =>
        rw [hi] at hr
        obtain ⟨-, ht⟩ : True ∧ t.WellFormed := by
          cases hr with
          | ok h => exact h
        cases next with
        | none =>
          rw [Eval.execute_primitive_ok hl hi]
          exact .ok ⟨trivial, ht⟩
        | some next =>
          -- the word to go on with has been taken off the stack, which is lower now
          have hlt := Eval.height_lt_of_invoke hi
          rw [Eval.execute_primitive_next hl hi]
          have hnext : SafeResult Raised (fun _ => True) (Eval.execute call next t) :=
            (execute_ends next ht).mono fun _ _ h => ⟨.located h.1, h.2⟩
          exact hnext.nameWord name
termination_by s.stack.height

theorem execute (name : String) : Safe Located (fun _ => True) (Eval.execute call name) :=
  fun _ hs => execute_ends hc name hs

/-- By induction on the number of tokens. Every opening bracket has a partner, and no closing
bracket is met outside of a pair. -/
theorem run (tokens : List Token) :
    IsProgram tokens → Safe Located (fun _ => True) (Eval.run call tokens) := by
  cases tokens with
  | nil =>
    intro _
    rw [Eval.run_nil]
    exact pure trivial
  | cons token rest =>
    obtain ⟨kind, position⟩ := token
    intro ht
    cases kind with
    | number value =>
      rw [Eval.run_number]
      exact bind (push (Value.wellFormed_number value)) fun _ _ => run rest (ht.of_plain rfl)
    | quoted name =>
      rw [Eval.run_quoted]
      exact bind (push (Value.wellFormed_reference.2 ht.head)) fun _ _ => run rest (ht.of_plain rfl)
    | word name =>
      rw [Eval.run_word]
      exact bind (execute hc name) fun _ _ => run rest (ht.of_plain rfl)
    | closer bracket => exact absurd ht.nested Token.Nested.not_closer
    | opener bracket =>
      obtain ⟨body, after, hsplit, hb, ha⟩ := ht.splitAtCloser
      have hlen := Token.length_of_splitAtCloser hsplit
      rw [Eval.run_opener call bracket position hsplit]
      exact bind (enclosed bracket hb (run body hb)) fun _ _ => run after ha
termination_by tokens.length
decreasing_by
  all_goals simp only [List.length_cons]
  all_goals omega

end Combinators

theorem callWithin (room : Nat) (frame : String) {body : List Token} (hb : IsProgram body) :
    Safe Located (fun _ => True) (Eval.callWithin room frame body) := by
  induction room generalizing frame body with
  | zero => exact fun _ hs => .error ⟨.of_word rfl not_false, hs⟩
  | succ room ih => exact inFrame frame (run (fun frame _ hb => ih frame hb) body hb)

theorem evaluate {tokens : List Token} (ht : IsProgram tokens) :
    Safe Located (fun _ => True) (Eval.evaluate tokens) :=
  fun s hs => run (fun frame _ hb => callWithin s.room frame hb) tokens ht s hs

end Safe

end StackCalc
