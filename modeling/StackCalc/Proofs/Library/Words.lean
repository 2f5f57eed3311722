import StackCalc.Proofs.Concatenation
import StackCalc.Proofs.Library

/-!
What the words of the standard library put in the place of their operands. A word is known by what
it rewrites on top of the stack: the tokens of its body rewrite one after the other, whatever lies
below their operands, and the word then takes one level of nesting more than they do.
-/
namespace StackCalc

open Eval

/-- The names mean what they mean where a session starts with the standard word library. -/
def Dictionary.Keeps (d : Dictionary) (names : List String) : Prop :=
  ∃ settings input output s, settings.loadPrelude = true ∧
    Session.start settings input output = .ok s ∧
      ∀ name ∈ names, d.lookup? name = s.dictionary.lookup? name

/-- What a primitive that only computes with the topmost values, or moves them, makes of the values
on top of the stack. The top comes first. -/
def Primitive.effect? : Primitive → List Value → Option (List Value)
  | .add, .number b :: .number a :: rest => some (.number (a + b) :: rest)
  | .subtract, .number b :: .number a :: rest => some (.number (a - b) :: rest)
  | .multiply, .number b :: .number a :: rest => some (.number (a * b) :: rest)
  | .divide, .number b :: .number a :: rest =>
    if b == 0 then none else some (.number (a / b) :: rest)
  | .remainder, .number b :: .number a :: rest =>
    if b == 0 then none else some (.number (Arithmetic.remainder a b) :: rest)
  | .power, .number b :: .number a :: rest => some (.number (a.pow b) :: rest)
  | .logarithm, .number b :: .number a :: rest =>
    some (.number (Arithmetic.logarithm a b) :: rest)
  | .larger, .number b :: .number a :: rest => some (.number (Arithmetic.larger a b) :: rest)
  | .smaller, .number b :: .number a :: rest => some (.number (Arithmetic.smaller a b) :: rest)
  | .compare, .number b :: .number a :: rest => some (.number (Arithmetic.comparison a b) :: rest)
  | .copy, a :: rest => some (a :: a :: rest)
  | .swap, b :: a :: rest => some (a :: b :: rest)
  | .drop, _ :: rest => some rest
  | .copySecond, b :: a :: rest => some (a :: b :: a :: rest)
  | .rotate3, c :: b :: a :: rest => some (a :: c :: b :: rest)
  | _, _ => none

/-- The stack has come to hold `after` instead of `before` on top of what lies below, of which
nothing has been taken off or moved. -/
structure Stack.Rewritten (s t : Stack) (before after below : List Value) : Prop where
  before : s.values = before ++ below
  after : t.values = after ++ below
  mark : min s.mark below.length ≤ t.mark

namespace Stack.Rewritten
variable {s t u : Stack} {before middle after below : List Value}

theorem refl (h : s.values = before ++ below) : s.Rewritten s before before below :=
  ⟨h, h, Nat.min_le_left _ _⟩

theorem pushed (h : s.values = before ++ below) (value : Value) :
    s.Rewritten (s.pushed value) before (value :: before) below :=
  ⟨h, congrArg _ h, Nat.min_le_left _ _⟩

theorem trans (h : s.Rewritten t before middle below) (h' : t.Rewritten u middle after below) :
    s.Rewritten u before after below :=
  ⟨h.before, h'.after, (Nat.le_min.2 ⟨h.mark, Nat.min_le_right _ _⟩).trans h'.mark⟩

/-- What the operands of a part leave alone, they leave alone. -/
theorem framed {rest : List Value} (h : s.Rewritten t before after (rest ++ below)) :
    s.Rewritten t (before ++ rest) (after ++ rest) below where
  before := by rw [h.before, List.append_assoc]
  after := by rw [h.after, List.append_assoc]
  mark := by
    have hm := h.mark
    rw [List.length_append] at hm
    omega

end Stack.Rewritten

/-- Wherever `levels` levels of nesting are left, tokens of these kinds leave `after` in the place
of `before`, and have no other effect. -/
def Dictionary.Rewrites (d : Dictionary) (levels : Nat) (kinds : List Token.Kind)
    (before after : List Value) : Prop :=
  ∀ (s : Session) (tokens : List Token) (below : List Value), s.dictionary = d →
    levels ≤ s.room → tokens.map (·.kind) = kinds → s.stack.values = before ++ below →
    ∃ left : Stack, s.stack.Rewritten left before after below ∧
      evaluate tokens s = .ok () { s with stack := left }

namespace Eval
variable {s : Session} {rest below : List Value}

section Numbers
variable {a b : Float} (h : s.stack.values = (.number b :: .number a :: rest) ++ below)
include h

theorem exists_popNumbers : ∃ t : Stack,
    s.stack.Rewritten t (.number b :: .number a :: rest) rest below ∧
      onStack Stack.popNumbers s = .ok (a, b) { s with stack := t } := by
  obtain ⟨settings, dictionary, ⟨values, height, mark, hheight⟩, enclosing, depth, input, output⟩ :=
    s
  cases h
  cases hheight
  refine ⟨_, ⟨rfl, rfl, ?_⟩, rfl⟩
  change min mark below.length ≤
    min (min mark ((rest ++ below).length + 1)) (rest ++ below).length
  rw [List.length_append]
  omega

theorem exists_binary (f : Float → Float → Float) : ∃ left : Stack,
    s.stack.Rewritten left (.number b :: .number a :: rest) (.number (f a b) :: rest) below ∧
      only (binary f) s = .ok none { s with stack := left } := by
  obtain ⟨t, ht, hpop⟩ := exists_popNumbers h
  exact ⟨_, ht.trans (.pushed ht.after _), only_eq_ok.2 ⟨bind_of_ok hpop, rfl⟩⟩

theorem exists_binaryNonzero (f : Float → Float → Float) (hb : ¬ (b == 0) = true) :
    ∃ left : Stack,
      s.stack.Rewritten left (.number b :: .number a :: rest) (.number (f a b) :: rest) below ∧
        only (binaryNonzero f) s = .ok none { s with stack := left } := by
  obtain ⟨t, ht, hpop⟩ := exists_popNumbers h
  refine ⟨_, ht.trans (.pushed ht.after _), only_eq_ok.2 ⟨(bind_of_ok hpop).trans ?_, rfl⟩⟩
  simp only [if_neg hb]
  rfl

end Numbers

theorem exists_rotate {count : Nat} {before after : List Value}
    (h : s.stack.values = before ++ below) (hc : count ≤ before.length)
    (ha : Stack.bringToFront (count - 1) (before ++ below) = after ++ below) : ∃ left : Stack,
    s.stack.Rewritten left before after below ∧
      only (onStack (Stack.rotate count)) s = .ok none { s with stack := left } := by
  have hh := s.stack.height_eq
  rw [h, List.length_append] at hh
  have hcount : count ≤ s.stack.height := by omega
  obtain ⟨t, hrotate, hv, hm⟩ := Stack.rotate_of_le hcount
  refine ⟨t, ⟨h, ?_, ?_⟩, only_eq_ok.2 ⟨onStack_eq_ok.2 ⟨_, hrotate, rfl⟩, rfl⟩⟩
  · rw [hv, h, ha]
  · rw [hm]
    omega

theorem exists_copy {places : Nat} {before : List Value} {value : Value}
    (h : s.stack.values = before ++ below) (hp : before[places]? = some value) : ∃ left : Stack,
    s.stack.Rewritten left before (value :: before) below ∧
      only (onStack (Stack.copyFromTop places)) s = .ok none { s with stack := left } := by
  obtain ⟨hlt, rfl⟩ := List.getElem?_eq_some_iff.1 hp
  have hlen : places < s.stack.values.length := by
    rw [h, List.length_append]
    omega
  have hcopy := Stack.copyFromTop_of_lt hlen
  simp only [h, List.getElem_append_left hlt] at hcopy
  exact ⟨_, .pushed h _, only_eq_ok.2 ⟨onStack_eq_ok.2 ⟨_, hcopy, rfl⟩, rfl⟩⟩

theorem exists_drop {value : Value} (h : s.stack.values = (value :: rest) ++ below) :
    ∃ left : Stack, s.stack.Rewritten left (value :: rest) rest below ∧
      only (discard (onStack Stack.pop)) s = .ok none { s with stack := left } := by
  obtain ⟨t, hpop, ht, hm⟩ := Stack.pop_of_cons h
  refine ⟨t, ⟨h, ht, ?_⟩, only_eq_ok.2 ⟨bind_of_ok (onStack_eq_ok.2 ⟨_, hpop, rfl⟩), rfl⟩⟩
  have hlen : (rest.append below).length = rest.length + below.length := List.length_append
  omega

/-- What a primitive does to the values on top it does wherever they lie on top. -/
theorem invoke_of_effect? {operation : Primitive} {before after : List Value}
    (he : operation.effect? before = some after) (h : s.stack.values = before ++ below)
    (call : Caller) : ∃ left : Stack, s.stack.Rewritten left before after below ∧
      invoke call operation s = .ok none { s with stack := left } := by
  -- operations on two numbers come first, division and remainder twice for the test of the divisor
  fun_cases Primitive.effect? operation before
  case case1 | case2 | case3 | case8 | case9 | case10 | case11 | case12 =>
    cases he
    exact exists_binary h _
  case case4 hb | case6 hb =>
    rw [Primitive.effect?, if_pos hb] at he
    cases he
  case case5 hb | case7 hb =>
    rw [Primitive.effect?, if_neg hb] at he
    cases he
    exact exists_binaryNonzero h _ hb
  case case13 =>
    cases he
    exact exists_copy h rfl
  case case14 =>
    cases he
    exact exists_rotate h (Nat.le_add_left 2 _) rfl
  case case15 =>
    cases he
    exact exists_drop h
  case case16 =>
    cases he
    exact exists_copy h rfl
  case case17 =>
    cases he
    exact exists_rotate h (Nat.le_add_left 3 _) rfl
  case case18 =>
    rw [Primitive.effect?] at he
    · cases he
    all_goals assumption

end Eval

namespace Dictionary

section Rewriting
variable {d : Dictionary} {levels : Nat} {rest : List Token.Kind} {name : String}
  {before middle after below : List Value}

theorem Rewrites.mono {more : Nat} {kinds : List Token.Kind}
    (h : d.Rewrites levels kinds before after) (hl : levels ≤ more) :
    d.Rewrites more kinds before after :=
  fun s tokens below hd hroom => h s tokens below hd (hl.trans hroom)

/-- What is on top of other values is rewritten as it is alone. -/
theorem Rewrites.framed {kinds : List Token.Kind}
    (h : d.Rewrites levels kinds before after) (upper : List Value) :
    d.Rewrites levels kinds (before ++ upper) (after ++ upper) := by
  intro s tokens below hd hroom hk hs
  obtain ⟨left, hleft, hrun⟩ := h s tokens (upper ++ below) hd hroom hk
    (by rw [hs, List.append_assoc])
  exact ⟨left, hleft.framed, hrun⟩

theorem Rewrites.nil : d.Rewrites levels [] before before := by
  intro s tokens below hd hroom hk hs
  obtain rfl := List.map_eq_nil_iff.1 hk
  refine ⟨s.stack, .refl hs, ?_⟩
  rw [evaluate, run_nil]
  rfl

theorem Rewrites.number (x : Float) (h : d.Rewrites levels rest (.number x :: before) after) :
    d.Rewrites levels (.number x :: rest) before after := by
  intro s tokens below hd hroom hk hs
  obtain ⟨⟨_, p⟩, tail, rfl, rfl, htail⟩ := List.map_eq_cons_iff.1 hk
  have hpush := Stack.Rewritten.pushed hs (.number x)
  obtain ⟨left, hleft, hrun⟩ :=
    h { s with stack := s.stack.pushed (.number x) } tail below hd hroom htail hpush.after
  refine ⟨left, hpush.trans hleft, ?_⟩
  rw [evaluate, run_number]
  exact hrun

/-- A word rewrites, and then the tokens behind it do. -/
theorem Rewrites.of_execute
    (hx : ∀ (s : Session) (below : List Value), s.dictionary = d → levels ≤ s.room →
      s.stack.values = before ++ below → ∃ t : Stack, s.stack.Rewritten t before middle below ∧
        execute (callWithin s.room) name s = .ok () { s with stack := t })
    (h : d.Rewrites levels rest middle after) :
    d.Rewrites levels (.word name :: rest) before after := by
  intro s tokens below hd hroom hk hs
  obtain ⟨⟨_, p⟩, tail, rfl, rfl, htail⟩ := List.map_eq_cons_iff.1 hk
  obtain ⟨t, ht, hexecute⟩ := hx s below hd hroom hs
  obtain ⟨left, hleft, hrun⟩ := h { s with stack := t } tail below hd hroom htail ht.after
  refine ⟨left, ht.trans hleft, ?_⟩
  rw [evaluate, run_word, bind_of_ok hexecute]
  exact hrun

theorem Rewrites.primitive {operation : Primitive}
    (hl : d.lookup? name = some (.primitive operation))
    (he : operation.effect? before = some middle) (h : d.Rewrites levels rest middle after) :
    d.Rewrites levels (.word name :: rest) before after := by
  refine .of_execute (fun s below hd hroom hs => ?_) h
  subst hd
  obtain ⟨t, ht, hi⟩ := invoke_of_effect? he hs (callWithin s.room)
  exact ⟨t, ht, execute_primitive_ok hl hi⟩

/-- What a word rewrites by itself it rewrites in front of other tokens. -/
theorem Rewrites.step (hw : d.Rewrites levels [.word name] before middle)
    (h : d.Rewrites levels rest middle after) :
    d.Rewrites levels (.word name :: rest) before after := by
  refine .of_execute (fun s below hd hroom hs => ?_) h
  obtain ⟨t, ht, hrun⟩ := hw s [⟨.word name, {}⟩] below hd hroom rfl hs
  rw [evaluate_single] at hrun
  exact ⟨t, ht, hrun⟩

/-- It does so on top of other values too. -/
theorem Rewrites.word {operands results : List Value}
    (hw : d.Rewrites levels [.word name] operands results)
    (h : d.Rewrites levels rest (results ++ before) after) :
    d.Rewrites levels (.word name :: rest) (operands ++ before) after :=
  .step (hw.framed before) h

/-- A call does what the tokens of the body do, and takes one level more. -/
theorem Rewrites.call {s : Session} {body : List Token}
    (h : s.dictionary.Rewrites levels (body.map (·.kind)) before after)
    (hroom : levels + 1 ≤ s.room) (hs : s.stack.values = before ++ below) (frame : String) :
    ∃ left : Stack, s.stack.Rewritten left before after below ∧
      callWithin s.room frame body s = .ok () { s with stack := left } := by
  rw [Session.room] at hroom
  -- the body runs in a frame of its own, with one level less
  have hdeep : levels ≤ s.settings.maxDepth - (s.depth + 1) := by omega
  obtain ⟨left, hleft, hrun⟩ :=
    h { s with depth := s.depth + 1 } body below rfl hdeep rfl hs
  have hlimit : ¬ s.settings.maxDepth ≤ s.depth := by omega
  refine ⟨left, hleft, ?_⟩
  rw [callWithin_room, if_neg hlimit]
  exact inFrame_of_ok hrun

/-- A word that stands for tokens does what they do, one level deeper. -/
theorem Rewrites.user {body : List Token} (hl : d.lookup? name = some (.user body))
    (hb : d.Rewrites levels (body.map (·.kind)) before after) :
    d.Rewrites (levels + 1) [.word name] before after := by
  refine .of_execute (fun s below hd hroom hs => ?_) .nil
  subst hd
  rw [execute_user hl]
  exact hb.call hroom hs name

/-- A text runs as its tokens do, from the outermost level. -/
theorem Rewrites.load {s : Session} {kinds : List Token.Kind}
    (h : s.dictionary.Rewrites levels kinds before after) {source : String}
    (hk : (tokenize source).toOption.map (·.map (·.kind)) = some kinds)
    (hl : levels ≤ s.settings.maxDepth) (hs : s.stack.values = before ++ below) :
    ∃ left : Stack, s.stack.Rewritten left before after below ∧
      load source s = .ok () { s with depth := 0, stack := left } := by
  obtain ⟨tokens, ht, hkinds⟩ := Option.map_eq_some_iff.1 hk
  have htokens : tokenize source = .ok tokens := by
    cases hr : tokenize source with
    | error fault =>
      rw [hr] at ht
      cases ht
    | ok found =>
      rw [hr] at ht
      cases ht
      rfl
  obtain ⟨left, hleft, hrun⟩ := h { s with depth := 0 } tokens below rfl hl hkinds hs
  exact ⟨left, hleft, (load_of_tokens htokens s).trans hrun⟩

end Rewriting

/-- Wherever `levels` levels of nesting are left, tokens of these kinds fail on top of `before` with
this error. -/
def Fails (d : Dictionary) (levels : Nat) (kinds : List Token.Kind) (before : List Value)
    (error : EvalError) : Prop :=
  ∀ (s : Session) (tokens : List Token) (below : List Value), s.dictionary = d →
    levels ≤ s.room → tokens.map (·.kind) = kinds → s.stack.values = before ++ below →
    ∃ t, evaluate tokens s = .error error t

section Failing
variable {d : Dictionary} {levels : Nat} {rest : List Token.Kind} {name : String}
  {before middle below : List Value} {error : EvalError}

theorem Fails.mono {more : Nat} {kinds : List Token.Kind} (h : d.Fails levels kinds before error)
    (hl : levels ≤ more) : d.Fails more kinds before error :=
  fun s tokens below hd hroom => h s tokens below hd (hl.trans hroom)

theorem Fails.framed {kinds : List Token.Kind} (h : d.Fails levels kinds before error)
    (upper : List Value) : d.Fails levels kinds (before ++ upper) error :=
  fun s tokens below hd hroom hk hs =>
    h s tokens (upper ++ below) hd hroom hk (by rw [hs, List.append_assoc])

/-- What fails by itself fails in front of other tokens. -/
theorem Fails.first (h : d.Fails levels [.word name] before error) (rest : List Token.Kind) :
    d.Fails levels (.word name :: rest) before error := by
  intro s tokens below hd hroom hk hs
  obtain ⟨⟨_, p⟩, tail, rfl, rfl, -⟩ := List.map_eq_cons_iff.1 hk
  obtain ⟨t, hrun⟩ := h s [⟨.word name, p⟩] below hd hroom rfl hs
  rw [evaluate_single] at hrun
  refine ⟨t, ?_⟩
  rw [evaluate, run_word]
  exact bind_of_error hrun

/-- A word rewrites, and then the tokens behind it fail. -/
theorem Fails.step (hw : d.Rewrites levels [.word name] before middle)
    (h : d.Fails levels rest middle error) : d.Fails levels (.word name :: rest) before error := by
  intro s tokens below hd hroom hk hs
  obtain ⟨⟨_, p⟩, tail, rfl, rfl, htail⟩ := List.map_eq_cons_iff.1 hk
  obtain ⟨left, hleft, hword⟩ := hw s [⟨.word name, p⟩] below hd hroom rfl hs
  rw [evaluate_single] at hword
  obtain ⟨t, hrun⟩ := h { s with stack := left } tail below hd hroom htail hleft.after
  refine ⟨t, ?_⟩
  rw [evaluate, run_word, bind_of_ok hword]
  exact hrun

theorem Fails.primitive {operation : Primitive}
    (hl : d.lookup? name = some (.primitive operation))
    (he : operation.effect? before = some middle) (h : d.Fails levels rest middle error) :
    d.Fails levels (.word name :: rest) before error :=
  .step (.primitive hl he .nil) h

/-- A primitive that fails is named, unless a word is named already. -/
theorem Fails.of_invoke {operation : Primitive}
    (hl : d.lookup? name = some (.primitive operation))
    (hi : ∀ (s : Session) (below : List Value), s.dictionary = d → levels ≤ s.room →
      s.stack.values = before ++ below →
        ∃ t, invoke (callWithin s.room) operation s = .error error t) :
    d.Fails levels [.word name] before (error.atWord name) := by
  intro s tokens below hd hroom hk hs
  obtain ⟨⟨_, p⟩, tail, rfl, rfl, htail⟩ := List.map_eq_cons_iff.1 hk
  obtain rfl := List.map_eq_nil_iff.1 htail
  obtain ⟨t, hinvoke⟩ := hi s below hd hroom hs
  subst hd
  exact ⟨t, (evaluate_single name p s).trans (execute_primitive_error hl hinvoke)⟩

/-- A word that stands for tokens fails as they do, one level deeper, and the error notes it. -/
theorem Fails.user {body : List Token} (hl : d.lookup? name = some (.user body))
    (hb : d.Fails levels (body.map (·.kind)) before error) :
    d.Fails (levels + 1) [.word name] before (error.inFrame name) := by
  intro s tokens below hd hroom hk hs
  subst hd
  obtain ⟨⟨_, p⟩, tail, rfl, rfl, htail⟩ := List.map_eq_cons_iff.1 hk
  obtain rfl := List.map_eq_nil_iff.1 htail
  rw [Session.room] at hroom
  have hdeep : levels ≤ s.settings.maxDepth - (s.depth + 1) := by omega
  obtain ⟨t, hrun⟩ := hb { s with depth := s.depth + 1 } body below rfl hdeep rfl hs
  have hlimit : ¬ s.settings.maxDepth ≤ s.depth := by omega
  rw [evaluate_single, execute_user hl, callWithin_room, if_neg hlimit]
  exact ⟨_, inFrame_of_error hrun⟩

end Failing

section Library
variable {d : Dictionary} {names : List String}

theorem Keeps.mono {fewer : List String} (h : d.Keeps names) (hs : fewer ⊆ names) :
    d.Keeps fewer := by
  obtain ⟨settings, input, output, s, hp, hstart, hl⟩ := h
  exact ⟨settings, input, output, s, hp, hstart, fun name hn => hl name (hs hn)⟩

theorem Keeps.lookup?_primitive (h : d.Keeps names) (operation : Primitive)
    (hn : operation.name ∈ names) :
    d.lookup? operation.name = some (.primitive operation) := by
  obtain ⟨settings, input, output, s, hp, hstart, hl⟩ := h
  rw [hl _ hn]
  exact Prelude.lookup?_primitive (Session.isHeldBy_of_start hp hstart) operation

theorem keeps_of_start {settings : Settings} {input : List UInt8} {output : Output} {s : Session}
    (hp : settings.loadPrelude = true) (h : Session.start settings input output = .ok s)
    (names : List String) : s.dictionary.Keeps names :=
  ⟨settings, input, output, s, hp, h, fun _ _ => rfl⟩

/-- A word of the library does what its body does, one level deeper. -/
theorem Rewrites.library {levels : Nat} {name : String} {kinds : List Token.Kind}
    {before after : List Value} (h : d.Keeps names) (hn : name ∈ names)
    (hb : Prelude.bodies.lookup name = some kinds) (hr : d.Rewrites levels kinds before after) :
    d.Rewrites (levels + 1) [.word name] before after := by
  obtain ⟨settings, input, output, s, hp, hstart, hl⟩ := h
  obtain ⟨body, hbody, rfl⟩ := Prelude.exists_body (Session.isHeldBy_of_start hp hstart) hb
  exact .user ((hl name hn).trans hbody) hr

theorem Fails.library {levels : Nat} {name : String} {kinds : List Token.Kind}
    {before : List Value} {error : EvalError} (h : d.Keeps names) (hn : name ∈ names)
    (hb : Prelude.bodies.lookup name = some kinds) (hf : d.Fails levels kinds before error) :
    d.Fails (levels + 1) [.word name] before (error.inFrame name) := by
  obtain ⟨settings, input, output, s, hp, hstart, hl⟩ := h
  obtain ⟨body, hbody, rfl⟩ := Prelude.exists_body (Session.isHeldBy_of_start hp hstart) hb
  exact .user ((hl name hn).trans hbody) hf

end Library

end Dictionary

/-- In the place of its operands the word leaves `results`, and has no other effect. -/
def Session.Leaves (s : Session) (name : String) (operands results below : List Value) : Prop :=
  ∀ position, ∃ left : Stack, s.stack.Rewritten left operands results below ∧
    evaluate [⟨.word name, position⟩] s = .ok () { s with stack := left }

theorem Dictionary.Rewrites.leaves {s : Session} {levels : Nat} {name : String}
    {operands results below : List Value}
    (h : s.dictionary.Rewrites levels [.word name] operands results) (hroom : levels ≤ s.room)
    (hs : s.stack.values = operands ++ below) : s.Leaves name operands results below :=
  fun position => h s [⟨.word name, position⟩] below rfl hroom rfl hs

theorem Dictionary.Fails.evaluate {s : Session} {levels : Nat} {name : String}
    {before below : List Value} {error : EvalError}
    (h : s.dictionary.Fails levels [.word name] before error) (hroom : levels ≤ s.room)
    (hs : s.stack.values = before ++ below) (position : Text.Position) :
    ∃ t, Eval.evaluate [⟨.word name, position⟩] s = .error error t :=
  h s [⟨.word name, position⟩] below rfl hroom rfl hs

end StackCalc
