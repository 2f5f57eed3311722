import StackCalc.Proofs.Log.Evaluator

/-!
Every evaluation ends. Here the evaluator is written with no measure at all: a step looks at one
token or one word and enters itself for everything else, for the tokens that follow, for the bodies
of array scopes, for calls, and for the word that an applied reference names. Of any tokens in any
session finitely many steps, one inside the other, decide the outcome.
-/
namespace StackCalc

open Eval Token

/-- How tokens are run and words are executed. -/
structure Evaluator where
  run : List Token → Eval Unit
  execute : String → Eval Unit

namespace Evaluator

/-- A call is refused at the limit, and else runs its body one level deeper. -/
def call (e : Evaluator) : Caller := fun frame body s =>
  if s.settings.maxDepth ≤ s.depth then
    .error { kind := .recursionLimit s.settings.maxDepth, word := some frame } s
  else inFrame frame (e.run body) s

/-- One step of the evaluator, which leaves to `e` all that it enters itself for. -/
def step (e : Evaluator) : Evaluator where
  run
    | [] => pure ()
    | ⟨.number value, _⟩ :: rest => do
      push (.number value)
      e.run rest
    | ⟨.quoted name, _⟩ :: rest => do
      push (.reference name)
      e.run rest
    | ⟨.word name, _⟩ :: rest => do
      e.execute name
      e.run rest
    | ⟨.closer bracket, position⟩ :: _ => fail (.parse (.unexpectedCloser bracket position))
    | ⟨.opener bracket, position⟩ :: rest =>
      match splitAtCloser 0 rest with
      | none => fail (.parse (.unclosed bracket position))
      | some (body, after) => do
        enclosed bracket body (e.run body)
        e.run after
  execute name := fun s =>
    match s.dictionary.lookup? name with
    | none => .error { kind := .unknownWord name, word := some name } s
    | some (.user body) => e.call name body s
    | some (.primitive operation) =>
      match invoke e.call operation s with
      | .error error t => nameWord name (.error error t)
      | .ok none t => .ok () t
      | .ok (some next) t => nameWord name (e.execute next t)

/-- The evaluator that takes `fuel` steps, one inside the other, and goes on as `beyond`. -/
def within (beyond : Evaluator) : Nat → Evaluator
  | 0 => beyond
  | fuel + 1 => (within beyond fuel).step

theorem within_add (beyond : Evaluator) (m n : Nat) :
    within beyond (m + n) = within (within beyond n) m := by
  induction m with
  | zero => rw [Nat.zero_add, within]
  | succ m ih => rw [Nat.add_right_comm, within, ih, within]

section Execute
variable {e : Evaluator} {name : String} {s t : Session} {operation : Primitive}

theorem execute_step_unknown (h : s.dictionary.lookup? name = none) :
    e.step.execute name s = .error { kind := .unknownWord name, word := some name } s := by
  simp only [step, h]

theorem execute_step_user {body : List Token}
    (h : s.dictionary.lookup? name = some (.user body)) :
    e.step.execute name s = e.call name body s := by
  simp only [step, h]

theorem execute_step_error {error : EvalError}
    (h : s.dictionary.lookup? name = some (.primitive operation))
    (hi : invoke e.call operation s = .error error t) :
    e.step.execute name s = .error (error.atWord name) t := by
  simp only [step, h, hi, nameWord]

theorem execute_step_ok (h : s.dictionary.lookup? name = some (.primitive operation))
    (hi : invoke e.call operation s = .ok none t) : e.step.execute name s = .ok () t := by
  simp only [step, h, hi]

theorem execute_step_next {next : String}
    (h : s.dictionary.lookup? name = some (.primitive operation))
    (hi : invoke e.call operation s = .ok (some next) t) :
    e.step.execute name s = nameWord name (e.execute next t) := by
  simp only [step, h, hi]

end Execute

end Evaluator

open Evaluator

/-- The session's settings and depth, which an evaluation restores. -/
structure Session.At (settings : Settings) (depth : Nat) (s : Session) : Prop where
  settings : s.settings = settings
  depth : s.depth = depth

/-- With enough fuel the outcome of `x` at `s` is `r`, whatever lies beyond. -/
def Reaches {α : Type} (x : Evaluator → Eval α) (s : Session)
    (r : EStateM.Result EvalError Session α) : Prop :=
  ∃ fuel, ∀ beyond, x (within beyond fuel) s = r

/-- Enough fuel makes `x` do what `y` does on this level of nesting, which `y` does not leave. -/
structure Attains (settings : Settings) (depth : Nat) {α : Type} (x : Evaluator → Eval α)
    (y : Eval α) : Prop where
  reaches : ∀ {s : Session}, s.At settings depth → Reaches x s (y s)
  keeps : ∀ {s : Session}, s.At settings depth → (finalState (y s)).At settings depth

section Reaches
variable {α : Type} {x x' : Evaluator → Eval α} {s t : Session}
  {r : EStateM.Result EvalError Session α}

theorem Reaches.of_eq (h : ∀ e, x e s = x' e t) (hr : Reaches x' t r) : Reaches x s r := by
  obtain ⟨fuel, hf⟩ := hr
  exact ⟨fuel, fun beyond => (h _).trans (hf beyond)⟩

/-- Two outcomes are reached with the fuel of both. -/
theorem Reaches.and {β : Type} {z : Evaluator → Eval β} {u : Session}
    {q : EStateM.Result EvalError Session β} (hr : Reaches x s r) (hq : Reaches z u q) :
    ∃ fuel, ∀ beyond, x (within beyond fuel) s = r ∧ z (within beyond fuel) u = q := by
  obtain ⟨m, hm⟩ := hr
  obtain ⟨n, hn⟩ := hq
  refine ⟨m + n, fun beyond => ⟨?_, ?_⟩⟩
  · rw [within_add]
    exact hm _
  · rw [Nat.add_comm, within_add]
    exact hn _

end Reaches

namespace Attains
variable {settings : Settings} {depth : Nat} {α β : Type}

theorem const {y : Eval α}
    (h : ∀ {s : Session}, s.At settings depth → (finalState (y s)).At settings depth) :
    Attains settings depth (fun _ => y) y :=
  ⟨fun _ => ⟨0, fun _ => rfl⟩, h⟩

theorem of_accounted {y : Eval α} {log : Session → List Invocation}
    (h : ∀ s, Accounted s (log s) (finalState (y s))) : Attains settings depth (fun _ => y) y :=
  const fun hs => ⟨(h _).settings.trans hs.settings, (h _).depth.trans hs.depth⟩

theorem pure (a : α) : Attains settings depth (fun _ => Pure.pure a) (Pure.pure a) :=
  const id

theorem fail (kind : ErrorKind) :
    Attains settings depth (fun _ => (Eval.fail kind : Eval α)) (Eval.fail kind) :=
  const id

theorem onStack (op : Stack.Op α) :
    Attains settings depth (fun _ => Eval.onStack op) (Eval.onStack op) :=
  of_accounted (Still.accounted_onStack op)

theorem push (value : Value) :
    Attains settings depth (fun _ => Eval.push value) (Eval.push value) :=
  onStack (Stack.push value)

theorem height : Attains settings depth (fun _ => Eval.height) Eval.height :=
  const id

theorem bind {x : Evaluator → Eval α} {y : Eval α} {f : Evaluator → α → Eval β} {g : α → Eval β}
    (hx : Attains settings depth x y)
    (hf : ∀ a, Attains settings depth (fun e => f e a) (g a)) :
    Attains settings depth (fun e => x e >>= f e) (y >>= g) := by
  constructor
  · intro s hs
    have hk := hx.keeps hs
    cases hy : y s with
    | error error t =>
      rw [bind_of_error hy]
      obtain ⟨fuel, hr⟩ := hx.reaches hs
      exact ⟨fuel, fun beyond => bind_of_error ((hr beyond).trans hy)⟩
    | ok a t =>
      rw [hy] at hk
      rw [bind_of_ok hy]
      -- fuel that is enough for the one and for the other
      obtain ⟨fuel, hr⟩ := (hx.reaches hs).and ((hf a).reaches hk)
      exact ⟨fuel, fun beyond =>
        (bind_of_ok ((hr beyond).1.trans hy)).trans (hr beyond).2⟩
  · intro s hs
    have hk := hx.keeps hs
    apply finalState_bind
    · intro a t hy
      rw [hy] at hk
      exact (hf a).keeps hk
    · intro error t hy
      rw [hy] at hk
      exact hk

/-- A change of scope: the computation starts from another session, perhaps on another level, and
its result is changed back. -/
theorem scope {inner : Nat} (pre : Session → Session)
    (post : Session → EStateM.Result EvalError Session α → EStateM.Result EvalError Session β)
    {F : Eval α → Eval β} {x : Evaluator → Eval α} {y : Eval α}
    (hF : ∀ act s, F act s = post s (act (pre s)))
    (hpre : ∀ {s : Session}, s.At settings depth → (pre s).At settings inner)
    (hpost : ∀ {s r}, (finalState r).At settings inner → (finalState (post s r)).At settings depth)
    (hx : Attains settings inner x y) : Attains settings depth (fun e => F (x e)) (F y) := by
  constructor
  · intro s hs
    obtain ⟨fuel, hr⟩ := hx.reaches (hpre hs)
    refine ⟨fuel, fun beyond => ?_⟩
    simp only [hF, hr beyond]
  · intro s hs
    rw [hF]
    exact hpost (hx.keeps (hpre hs))

/-- What follows after a step takes one step more. -/
theorem step {x z : Evaluator → Eval α} {y : Eval α} (h : ∀ e : Evaluator, z e.step = x e)
    (hx : Attains settings depth x y) : Attains settings depth z y := by
  refine ⟨fun hs => ?_, hx.keeps⟩
  obtain ⟨fuel, hr⟩ := hx.reaches hs
  exact ⟨fuel + 1, fun beyond => (congrFun (h _) _).trans (hr beyond)⟩

/-! Loops over bodies. -/

section Loops
variable {ι : Type}

theorem mapM {f : Evaluator → ι → Eval β} {g : ι → Eval β}
    (h : ∀ item, Attains settings depth (fun e => f e item) (g item)) (items : List ι) :
    Attains settings depth (fun e => items.mapM (f e)) (items.mapM g) := by
  induction items with
  | nil =>
    simp only [List.mapM_nil]
    exact pure []
  | cons item rest ih =>
    simp only [List.mapM_cons]
    exact bind (h item) fun _ => bind ih fun _ => pure _

theorem foldlM {f : Evaluator → β → ι → Eval β} {g : β → ι → Eval β}
    (h : ∀ b item, Attains settings depth (fun e => f e b item) (g b item)) (items : List ι)
    (b : β) : Attains settings depth (fun e => items.foldlM (f e) b) (items.foldlM g b) := by
  induction items generalizing b with
  | nil => exact pure b
  | cons item rest ih =>
    simp only [List.foldlM_cons]
    exact bind (h b item) ih

theorem times {x : Evaluator → Eval Unit} {y : Eval Unit} (h : Attains settings depth x y)
    (count : Nat) :
    Attains settings depth (fun e => Eval.times (x e) count) (Eval.times y count) := by
  induction count with
  | zero => exact pure ()
  | succ count ih => exact bind h fun _ => ih

end Loops

theorem only {x : Evaluator → Eval Unit} {y : Eval Unit} (h : Attains settings depth x y) :
    Attains settings depth (fun e => Eval.only (x e)) (Eval.only y) :=
  bind h fun _ => pure none

/-! Changes of scope. -/

/-- What a watch that was entered at `s` makes of the result under it. -/
def watchEnd (s : Session) : EStateM.Result EvalError Session Unit →
    EStateM.Result EvalError Session Nat
  | .ok () t => .ok t.stack.mark (watchLeft s.stack.mark t)
  | .error error t => .error error (watchLeft s.stack.mark t)

/-- What the end of a frame makes of the result within it. -/
def frameEnd (name : String) (_ : Session) : EStateM.Result EvalError Session Unit →
    EStateM.Result EvalError Session Unit
  | .ok () t => .ok () { t with depth := t.depth - 1 }
  | .error error t => .error (error.inFrame name) { t with depth := t.depth - 1 }

/-- What the end of an array scope makes of the result within it. -/
def scopeEnd (_ : Session) : EStateM.Result EvalError Session Unit →
    EStateM.Result EvalError Session Unit
  | .ok () t => Eval.push (.sequence t.stack.fromBottom) (scopeLeft t)
  | .error error t => .error error (scopeLeft t)

theorem watching {x : Evaluator → Eval Unit} {y : Eval Unit} (h : Attains settings depth x y) :
    Attains settings depth (fun e => Eval.watching (x e)) (Eval.watching y) := by
  refine scope watchEntered watchEnd ?_ ?_ ?_ h
  · exact fun _ _ => rfl
  · exact fun hs => ⟨hs.settings, hs.depth⟩
  · intro s r hr
    cases r <;> exact ⟨hr.settings, hr.depth⟩

theorem inFrame (name : String) {x : Evaluator → Eval Unit} {y : Eval Unit}
    (h : Attains settings (depth + 1) x y) :
    Attains settings depth (fun e => Eval.inFrame name (x e)) (Eval.inFrame name y) := by
  refine scope (fun s => { s with depth := s.depth + 1 }) (frameEnd name) ?_ ?_ ?_ h
  · exact fun _ _ => rfl
  · exact fun hs => ⟨hs.settings, congrArg (· + 1) hs.depth⟩
  · intro s r hr
    have hd : (finalState r).depth - 1 = depth := by rw [hr.depth, Nat.add_sub_cancel]
    cases r <;> exact ⟨hr.settings, hd⟩

theorem arrayScope {x : Evaluator → Eval Unit} {y : Eval Unit} (h : Attains settings depth x y) :
    Attains settings depth (fun e => Eval.arrayScope (x e)) (Eval.arrayScope y) := by
  refine scope scopeEntered scopeEnd ?_ ?_ ?_ h
  · exact fun _ _ => rfl
  · exact fun hs => ⟨hs.settings, hs.depth⟩
  · intro s r hr
    cases r <;> exact ⟨hr.settings, hr.depth⟩

theorem enclosed (bracket : Bracket) (body : List Token) {x : Evaluator → Eval Unit}
    {y : Eval Unit} (h : Attains settings depth x y) :
    Attains settings depth (fun e => Eval.enclosed bracket body (x e))
      (Eval.enclosed bracket body y) := by
  cases bracket with
  | brace => exact push _
  | square => exact arrayScope h

/-! Combinators over bodies that run through `call`. -/

section Combinators
variable {call : Caller} (hc : ∀ frame body, Attains settings depth (fun e => e.call frame body)
  (call frame body)) {frame : String}
include hc

theorem singleResult (body : List Token) (base : Nat) :
    Attains settings depth (fun e => Eval.singleResult e.call frame body base)
      (Eval.singleResult call frame body base) := by
  refine bind (watching (hc frame body)) fun low => ?_
  refine bind height fun left => ?_
  split
  · exact fail _
  · exact onStack _

theorem mapStep (body : List Token) (base : Nat) (item : Value) :
    Attains settings depth (fun e => Eval.mapStep e.call frame body base item)
      (Eval.mapStep call frame body base item) :=
  bind (push item) fun _ => singleResult hc body base

theorem filterStep (body : List Token) (base : Nat) (item : Value) :
    Attains settings depth (fun e => Eval.filterStep e.call frame body base item)
      (Eval.filterStep call frame body base item) :=
  bind (push item) fun _ => bind (singleResult hc body base) fun _ =>
    pure _

theorem reduce (body : List Token) (first : Value) (items : List Value) :
    Attains settings depth (fun e => Eval.reduce e.call frame body first items)
      (Eval.reduce call frame body first items) := by
  refine bind height fun base => foldlM (fun accumulator item => ?_) items first
  exact bind (push accumulator) fun _ => bind (push item) fun _ =>
    singleResult hc body base

theorem map : Attains settings depth (fun e => Eval.map e.call frame) (Eval.map call frame) := by
  refine bind (onStack _) ?_
  rintro ⟨items, body⟩
  exact bind height fun base => bind (mapM (mapStep hc body base) items) fun _ =>
    push _

theorem filter :
    Attains settings depth (fun e => Eval.filter e.call frame) (Eval.filter call frame) := by
  refine bind (onStack _) ?_
  rintro ⟨items, body⟩
  exact bind height fun base => bind (mapM (filterStep hc body base) items) fun _ =>
    push _

theorem fold : Attains settings depth (fun e => Eval.fold e.call frame) (Eval.fold call frame) := by
  refine bind (onStack _) ?_
  rintro ⟨items, start, body⟩
  exact bind (reduce hc body start items) fun _ => push _

theorem fold1 :
    Attains settings depth (fun e => Eval.fold1 e.call frame) (Eval.fold1 call frame) := by
  refine bind (onStack _) ?_
  rintro ⟨items, body⟩
  cases items with
  | nil => exact fail _
  | cons first rest => exact bind (reduce hc body first rest) fun _ => push _

theorem iterate :
    Attains settings depth (fun e => Eval.iterate e.call frame) (Eval.iterate call frame) := by
  refine bind (onStack _) ?_
  rintro ⟨count, body⟩
  exact times (hc frame body) count

theorem choose :
    Attains settings depth (fun e => Eval.choose e.call frame) (Eval.choose call frame) := by
  refine bind (onStack _) ?_
  rintro ⟨condition, whenTrue, whenFalse⟩
  dsimp only
  generalize (if condition != 0 then whenTrue else whenFalse) = branch
  cases branch with
  | quotation body => exact hc frame body
  | _ => exact push _

theorem apply :
    Attains settings depth (fun e => Eval.apply e.call frame) (Eval.apply call frame) := by
  refine bind (onStack _) fun value => ?_
  cases value with
  | quotation body => exact only (hc frame body)
  | reference name => exact pure _
  | _ => exact fail _

theorem invoke (operation : Primitive) :
    Attains settings depth (fun e => Eval.invoke e.call operation)
      (Eval.invoke call operation) := by
  have hplain := (Log.Sound.invoke (.callWithin 0) operation).accounts
  cases operation with
  | map => exact only (map hc)
  | fold => exact only (fold hc)
  | fold1 => exact only (fold1 hc)
  | filter => exact only (filter hc)
  | iterate => exact only (iterate hc)
  | choose => exact only (choose hc)
  | apply => exact apply hc
  -- the other primitives run no bodies, so they are the same for every evaluator
  | _ => exact (of_accounted hplain :)

/-- A word that is applied has been taken off the stack, so the induction is on its height. -/
theorem execute_from (name : String) {s : Session} (hs : s.At settings depth) :
    Reaches (fun e => e.execute name) s (Eval.execute call name s) ∧
      (finalState (Eval.execute call name s)).At settings depth := by
  cases hl : s.dictionary.lookup? name with
  | none =>
    rw [execute_unknown hl]
    exact ⟨⟨1, fun beyond => execute_step_unknown hl⟩, hs⟩
  | some definition =>
    cases definition with
    | user body =>
      rw [execute_user hl]
      obtain ⟨fuel, hf⟩ := (hc name body).reaches hs
      exact ⟨⟨fuel + 1, fun beyond => (execute_step_user hl).trans (hf beyond)⟩,
        (hc name body).keeps hs⟩
    | primitive operation =>
      have hi := (invoke hc operation).reaches hs
      have hk := (invoke hc operation).keeps hs
      cases hr : Eval.invoke call operation s with
      | error error t =>
        rw [hr] at hi hk
        rw [execute_primitive_error hl hr]
        obtain ⟨fuel, hf⟩ := hi
        exact ⟨⟨fuel + 1, fun beyond => execute_step_error hl (hf beyond)⟩, hk⟩
      | ok next t =>
        rw [hr] at hi hk
        cases next with
        | none =>
          rw [execute_primitive_ok hl hr]
          obtain ⟨fuel, hf⟩ := hi
          exact ⟨⟨fuel + 1, fun beyond => execute_step_ok hl (hf beyond)⟩, hk⟩
        | some next =>
          -- the word to go on with has been taken off the stack, which is lower now
          have hlt := height_lt_of_invoke hr
          obtain ⟨hnext, hend⟩ := execute_from next (s := t) hk
          obtain ⟨fuel, hf⟩ := hi.and hnext
          rw [execute_primitive_next hl hr]
          refine ⟨⟨fuel + 1, fun beyond => ?_⟩, by rwa [finalState_nameWord]⟩
          exact (execute_step_next hl (hf beyond).1).trans (congrArg (nameWord name) (hf beyond).2)
termination_by s.stack.height

theorem execute (name : String) :
    Attains settings depth (fun e => e.execute name) (Eval.execute call name) :=
  ⟨fun hs => (execute_from hc name hs).1, fun hs => (execute_from hc name hs).2⟩

/-- By induction on the number of tokens. -/
theorem run (tokens : List Token) :
    Attains settings depth (fun e => e.run tokens) (Eval.run call tokens) := by
  cases tokens with
  | nil =>
    rw [run_nil]
    exact step (fun _ => rfl) (pure ())
  | cons token rest =>
    obtain ⟨kind, position⟩ := token
    cases kind with
    | number value =>
      rw [run_number]
      exact step (fun _ => rfl) (bind (push _) fun _ => run rest)
    | quoted name =>
      rw [run_quoted]
      exact step (fun _ => rfl) (bind (push _) fun _ => run rest)
    | word name =>
      rw [run_word]
      exact step (fun _ => rfl) (bind (execute hc name) fun _ => run rest)
    | closer bracket =>
      rw [run_closer]
      exact step (fun _ => rfl) (fail _)
    | opener bracket =>
      cases hsplit : splitAtCloser 0 rest with
      | none =>
        rw [run_unclosed call bracket position hsplit]
        refine step (fun e => ?_) (fail _)
        simp only [Evaluator.step, hsplit]
      | some parts =>
        obtain ⟨body, after⟩ := parts
        have hlen := length_of_splitAtCloser hsplit
        rw [run_opener call bracket position hsplit]
        refine step (fun e => ?_) (bind (enclosed bracket body (run body)) fun _ => run after)
        simp only [Evaluator.step, hsplit]
termination_by tokens.length
decreasing_by
  all_goals simp only [List.length_cons]
  all_goals omega

end Combinators

/-- By induction on the levels of nesting that are left. -/
theorem callWithin (frame : String) (body : List Token) :
    Attains settings depth (fun e => e.call frame body)
      (Eval.callWithin (settings.maxDepth - depth) frame body) := by
  generalize hr : settings.maxDepth - depth = room
  induction room generalizing depth frame body with
  | zero =>
    have hlimit : settings.maxDepth ≤ depth := by omega
    refine ⟨fun {s} hs => ⟨0, fun beyond => ?_⟩, id⟩
    simp only [Evaluator.call, Eval.callWithin, hs.settings, hs.depth, if_pos hlimit]
  | succ room ih =>
    have hlimit : ¬ settings.maxDepth ≤ depth := by omega
    have hbody (frame : String) (body : List Token) : Attains settings (depth + 1)
        (fun e => e.call frame body) (Eval.callWithin room frame body) :=
      ih frame body (by omega)
    have hframe := inFrame frame (run hbody body)
    refine ⟨fun {s} hs => (hframe.reaches hs).of_eq fun e => ?_, hframe.keeps⟩
    simp only [Evaluator.call, hs.settings, hs.depth, if_neg hlimit]

end Attains

/-- Every evaluation ends, of any tokens in any session: with enough fuel the outcome, a success or
an error, is that of `evaluate`, whatever lies beyond the steps that the fuel allows. -/
theorem evaluate_terminates (tokens : List Token) (s : Session) :
    ∃ fuel, ∀ beyond : Evaluator, (beyond.within fuel).run tokens s = evaluate tokens s :=
  (Attains.run Attains.callWithin tokens).reaches ⟨rfl, rfl⟩

end StackCalc
