import Mathlib.Data.List.Forall2
import Mathlib.Data.Option.Basic
import StackCalc.Proofs.Outcome

/-!
Pairs of sessions in which the same things happen. What a simulation compares may differ in tokens
that are of the same kind, in the way dictionaries are kept, and in the limit on nesting; all else
is one and the same, and an evaluation goes the same way in both sessions unless an error excuses
it.
-/
namespace StackCalc

/-- A value is a number, a quotation, a reference, or a sequence of smaller values. -/
theorem Value.induction {P : Value → Prop} (number : ∀ x, P (.number x))
    (sequence : ∀ items, (∀ item ∈ items, P item) → P (.sequence items))
    (quotation : ∀ body, P (.quotation body)) (reference : ∀ name, P (.reference name)) :
    ∀ v, P v
  | .number x => number x
  | .sequence items => sequence items fun item _ =>
      Value.induction number sequence quotation reference item
  | .quotation body => quotation body
  | .reference name => reference name

/-- The values are the same but for the tokens of quotations, which correspond one by one. -/
inductive Value.Corresponds (T : Token → Token → Prop) : Value → Value → Prop where
  | number (x : Float) : Corresponds T (.number x) (.number x)
  | sequence {items items' : List Value} :
      List.Forall₂ (Corresponds T) items items' → Corresponds T (.sequence items) (.sequence items')
  | quotation {body body' : List Token} :
      List.Forall₂ T body body' → Corresponds T (.quotation body) (.quotation body')
  | reference (name : String) : Corresponds T (.reference name) (.reference name)

inductive Definition.Corresponds (T : Token → Token → Prop) : Definition → Definition → Prop where
  | primitive (operation : Primitive) : Corresponds T (.primitive operation) (.primitive operation)
  | user {body body' : List Token} :
      List.Forall₂ T body body' → Corresponds T (.user body) (.user body')

/-- Value by value the stacks correspond, and their marks are at one place. -/
structure Stack.Corresponds (T : Token → Token → Prop) (s s' : Stack) : Prop where
  values : List.Forall₂ (Value.Corresponds T) s.values s'.values
  mark : s'.mark = s.mark

/-- What two runs that are compared may differ in. -/
structure Simulation where
  token : Token → Token → Prop
  dictionary : Dictionary → Dictionary → Prop
  /-- The settings of the first session and those of the second. -/
  first : Settings
  second : Settings
  /-- Errors of the first run after which nothing is claimed of the second. -/
  excused : ErrorKind → Prop
  kind_eq : ∀ {t t' : Token}, token t t' → t'.kind = t.kind
  lookup : ∀ {d d' : Dictionary}, dictionary d d' → ∀ name,
    Option.Rel (Definition.Corresponds token) (d.lookup? name) (d'.lookup? name)
  define : ∀ {d d' : Dictionary} {body body' : List Token}, dictionary d d' →
    List.Forall₂ token body body' → ∀ name,
      dictionary (d.define name (.user body)) (d'.define name (.user body'))
  addAlias : ∀ {d d' e : Dictionary} {name source : String}, dictionary d d' →
    d.addAlias name source = .ok e → ∃ e', d'.addAlias name source = .ok e' ∧ dictionary e e'

namespace Simulation

/-- The sessions differ in the ways of the simulation only. The numbers of open calls may differ:
what counts is how many more the limits allow. -/
structure Related (m : Simulation) (s s' : Session) : Prop where
  first : s.settings = m.first
  second : s'.settings = m.second
  dictionary : m.dictionary s.dictionary s'.dictionary
  stack : Stack.Corresponds m.token s.stack s'.stack
  enclosing : List.Forall₂ (Stack.Corresponds m.token) s.enclosing s'.enclosing
  input : s'.input = s.input
  output : s'.output = s.output

/-- The same thing went wrong. The message may name another limit, or the place of another token. -/
inductive Kinds (m : Simulation) : ErrorKind → ErrorKind → Prop where
  | same (kind : ErrorKind) : Kinds m kind kind
  | limit : Kinds m (.recursionLimit m.first.maxDepth) (.recursionLimit m.second.maxDepth)
  | unexpectedCloser {bracket : Bracket} {p p' : Text.Position} :
      m.token ⟨.closer bracket, p⟩ ⟨.closer bracket, p'⟩ →
        Kinds m (.parse (.unexpectedCloser bracket p)) (.parse (.unexpectedCloser bracket p'))
  | unclosed {bracket : Bracket} {p p' : Text.Position} :
      m.token ⟨.opener bracket, p⟩ ⟨.opener bracket, p'⟩ →
        Kinds m (.parse (.unclosed bracket p)) (.parse (.unclosed bracket p'))

/-- The same thing went wrong at the same word and within the same frames. -/
structure Errors (m : Simulation) (e e' : EvalError) : Prop where
  kind : m.Kinds e.kind e'.kind
  word : e'.word = e.word
  trace : e'.trace = e.trace

theorem Errors.refl (m : Simulation) (e : EvalError) : m.Errors e e :=
  ⟨.same e.kind, rfl, rfl⟩

section Results
variable {α β : Type}

/-- How the results of the two runs agree. -/
inductive Matches (m : Simulation) (Q : α → β → Prop) :
    EStateM.Result EvalError Session α → EStateM.Result EvalError Session β → Prop where
  | ok {a : α} {b : β} {s s' : Session} :
      Q a b → m.Related s s' → Matches m Q (.ok a s) (.ok b s')
  | error {e e' : EvalError} {s s' : Session} :
      m.Errors e e' → m.Related s s' → Matches m Q (.error e s) (.error e' s')
  | excused {e : EvalError} {s : Session} {r : EStateM.Result EvalError Session β} :
      m.excused e.kind → Matches m Q (.error e s) r

/-- Started from related sessions the two computations end in related sessions. -/
def Simulates (m : Simulation) (Q : α → β → Prop) (x : Eval α) (y : Eval β) : Prop :=
  ∀ s s' : Session, m.Related s s' → m.Matches Q (x s) (y s')

theorem Matches.nameWord {m : Simulation} {Q : α → β → Prop}
    {r : EStateM.Result EvalError Session α} {r' : EStateM.Result EvalError Session β}
    (h : m.Matches Q r r') (name : String) :
    m.Matches Q (Eval.nameWord name r) (Eval.nameWord name r') := by
  cases h with
  | ok ha ht => exact .ok ha ht
  | error he ht =>
    refine .error ⟨he.kind, ?_, he.trace⟩ ht
    simp only [EvalError.atWord, he.word]
  | excused hx => exact .excused hx

end Results

namespace Simulates
variable {m : Simulation} {α α' β β' : Type} {Q : α → α' → Prop} {P : β → β' → Prop}

theorem pure {a : α} {a' : α'} (h : Q a a') : m.Simulates Q (Pure.pure a) (Pure.pure a') :=
  fun _ _ hs => .ok h hs

theorem fail (kind : ErrorKind) : m.Simulates Q (Eval.fail kind) (Eval.fail kind) :=
  fun _ _ hs => .error (.refl m _) hs

theorem bind {x : Eval α} {x' : Eval α'} {f : α → Eval β} {f' : α' → Eval β'}
    (hx : m.Simulates Q x x') (hf : ∀ a a', Q a a' → m.Simulates P (f a) (f' a')) :
    m.Simulates P (x >>= f) (x' >>= f') := by
  intro s s' hs
  have hm := hx s s' hs
  cases hr : x s with
  | ok a t =>
    rw [hr] at hm
    rw [bind_of_ok hr]
    generalize hr' : x' s' = r' at hm
    cases hm with
    | ok ha ht =>
      rw [bind_of_ok hr']
      exact hf _ _ ha _ _ ht
  | error e t =>
    rw [hr] at hm
    rw [bind_of_error hr]
    generalize hr' : x' s' = r' at hm
    cases hm with
    | error he ht =>
      rw [bind_of_error hr']
      exact .error he ht
    | excused hx => exact .excused hx

end Simulates

end Simulation

end StackCalc
