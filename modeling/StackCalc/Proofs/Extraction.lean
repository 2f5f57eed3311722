import Mathlib.Algebra.Order.Field.Rat
import Mathlib.Tactic.NormNum
import StackCalc.Proofs.Concatenation
import StackCalc.Proofs.Library
import StackCalc.Proofs.Limit
import StackCalc.Proofs.Underway

/-!
Bodies and the words that stand for them. A call runs its body one level deeper, so that there is
more room for the same tokens where the call stands: what the call has done without meeting the
limit, they do as well.
-/
namespace StackCalc

open Eval

namespace Arithmetic

/-- The number is the natural number `n`. -/
def Denotes (n : Nat) (x : Float) : Prop :=
  match x.toModel.unpack with
  | .zero _ => n = 0
  | .finite sign mantissa exponent _ => sign = .positive ∧ (mantissa : ℚ) * 2 ^ exponent = n
  | _ => False

/-- A natural number of at most 64 bits is a count. -/
theorem count?_of_denotes {n : Nat} {x : Float} (h : Denotes n x) (hn : n < 2 ^ 64) :
    count? x = some n := by
  have hmax : n ≤ maxCount := Nat.le_sub_one_of_lt hn
  unfold Denotes at h
  unfold count?
  cases hx : x.toModel.unpack with
  | zero sign =>
    rw [hx] at h
    rw [show n = 0 from h]
  | finite sign mantissa exponent hm =>
    rw [hx] at h
    obtain ⟨rfl, hvalue⟩ := h
    have hpow : (2 : ℚ) ^ exponent.toNat = 2 ^ exponent * 2 ^ (-exponent).toNat := by
      rw [← zpow_natCast, ← zpow_natCast, ← zpow_add₀ two_ne_zero]
      congr 1
      omega
    -- with the exponent on the side where it is positive, the equation is one of natural numbers
    have hwhole : n * 2 ^ (-exponent).toNat = mantissa * 2 ^ exponent.toNat := by
      have hcast : (n : ℚ) * 2 ^ (-exponent).toNat = mantissa * 2 ^ exponent.toNat := by
        rw [hpow, ← hvalue, mul_assoc]
      exact_mod_cast hcast
    simp only [Nat.shiftLeft_eq, Nat.shiftRight_eq_div_pow, ← hwhole]
    rw [Nat.mul_div_cancel _ (Nat.two_pow_pos _), if_pos rfl, Nat.min_eq_right hmax]
  | infinity sign =>
    rw [hx] at h
    exact h.elim
  | notANumber =>
    rw [hx] at h
    exact h.elim

end Arithmetic

section Call
variable {frame : String} {body : List Token} {s t : Session}

/-- One level further out there is room for all that there has been room for. -/
theorem evaluate_of_deeper (hc : ¬ CutOff (evaluate body { s with depth := s.depth + 1 })) :
    evaluate body s = mapResult id (fun t => { t with depth := t.depth - 1 })
      (evaluate body { s with depth := s.depth + 1 }) := by
  have hroom : s.settings.maxDepth - (s.depth + 1) ≤ s.settings.maxDepth - s.depth := by omega
  have houter : evaluate body s = mapResult id (Session.within s.settings.maxDepth s.depth)
      (evaluate body { s with depth := s.depth + 1 }) := evaluate_within_of_le s body hroom hc
  -- the body has kept the settings, and is back at the depth where it began
  have ha := (Log.Sound.evaluate body).accounts { s with depth := s.depth + 1 }
  rw [houter]
  apply mapResult_congr
  generalize finalState (evaluate body { s with depth := s.depth + 1 }) = u at ha
  have hsettings : u.settings = s.settings := ha.settings
  have hdepth : u.depth - 1 = s.depth := by rw [ha.depth, Nat.add_sub_cancel]
  rw [Session.within, Session.limitedTo, hdepth, ← hsettings]

variable {error : EvalError}

theorem callWithin_cases (frame : String) (body : List Token) (s : Session) :
    (∃ limit, callWithin s.room frame body s =
      .error { kind := .recursionLimit limit, word := some frame } s) ∨
    callWithin s.room frame body s = inFrame frame (evaluate body) s := by
  rw [callWithin_room]
  split
  · exact .inl ⟨_, rfl⟩
  · exact .inr rfl

/-- A call that succeeds may be replaced by its body. -/
theorem inline_of_call (h : callWithin s.room frame body s = .ok () t) :
    evaluate body s = .ok () t := by
  rcases callWithin_cases frame body s with ⟨limit, hr⟩ | hr
  · cases hr.symm.trans h
  · rw [hr, inFrame] at h
    cases hd : evaluate body { s with depth := s.depth + 1 } with
    | ok _ u =>
      have hc : ¬ CutOff (evaluate body { s with depth := s.depth + 1 }) := by
        rintro ⟨_, _, _, he, -⟩
        cases hd.symm.trans he
      rw [hd] at h
      rw [evaluate_of_deeper hc, hd]
      exact h
    | error e u =>
      rw [hd] at h
      cases h

/-- Where a call fails, and not at the limit, its body fails likewise, but the call is not noted. -/
theorem inline_of_call_error (hk : ∀ limit, error.kind ≠ .recursionLimit limit)
    (h : callWithin s.room frame body s = .error error t) :
    ∃ inner, evaluate body s = .error inner t ∧ error = inner.inFrame frame := by
  rcases callWithin_cases frame body s with ⟨limit, hr⟩ | hr
  · cases hr.symm.trans h
    exact absurd rfl (hk limit)
  · rw [hr, inFrame] at h
    cases hd : evaluate body { s with depth := s.depth + 1 } with
    | ok _ u =>
      rw [hd] at h
      cases h
    | error inner u =>
      rw [hd] at h
      cases h
      have hc : ¬ CutOff (evaluate body { s with depth := s.depth + 1 }) := by
        rintro ⟨e, _, limit, he, hkind⟩
        cases hd.symm.trans he
        exact hk limit hkind
      refine ⟨inner, ?_, rfl⟩
      rw [evaluate_of_deeper hc, hd]
      rfl

end Call

section Words
variable {s t : Session} {body : List Token}

/-- In place of `tokens`, which run `body` in one call, the body itself may stand. It succeeds with
them, and unless they fail at the limit it fails with them; the error then lacks nothing but the
last frame. -/
def Extracts (s : Session) (body tokens : List Token) (frame : String) : Prop :=
  match evaluate tokens s with
  | .ok _ t => evaluate body s = .ok () t
  | .error error t => (∀ limit, error.kind ≠ .recursionLimit limit) →
      ∃ inner, evaluate body s = .error inner t ∧ inner.kind = error.kind ∧
        inner.word = error.word ∧ error.trace = inner.trace ++ [frame]

/-- The call is all that the tokens do, but that the word may be named which makes it. -/
theorem Extracts.of_call {tokens : List Token} {frame : String} (name : String)
    (hs : s.Meets .nested) (hb : Token.Nested body)
    (h : evaluate tokens s = callWithin s.room frame body s ∨
      evaluate tokens s = nameWord name (callWithin s.room frame body s)) :
    Extracts s body tokens frame := by
  unfold Extracts
  cases hr : callWithin s.room frame body s with
  | ok _ t =>
    have ht : evaluate tokens s = .ok () t := by
      rcases h with h | h
      · rw [h, hr]
      · rw [h, hr]
        rfl
    rw [ht]
    exact inline_of_call hr
  | error e t =>
    have hinline (hk : ∀ limit, e.kind ≠ .recursionLimit limit) :
        ∃ inner, evaluate body s = .error inner t ∧ e = inner.inFrame frame ∧
          ∃ word, inner.word = some word := by
      obtain ⟨inner, hi, he⟩ := inline_of_call_error hk hr
      exact ⟨inner, hi, he, exists_word_of_evaluate hs hb hi⟩
    rcases h with h | h
    · rw [h, hr]
      intro hk
      obtain ⟨inner, hi, rfl, -⟩ := hinline hk
      exact ⟨inner, hi, rfl, rfl, rfl⟩
    · rw [h, hr]
      intro hk
      obtain ⟨inner, hi, rfl, word, hword⟩ := hinline hk
      -- the word that has failed is named already
      refine ⟨inner, hi, rfl, ?_, rfl⟩
      simp only [EvalError.atWord, EvalError.inFrame, hword, Option.some_or]

/-- What has been pushed is taken off again. -/
theorem Stack.Marked.pop_pushed {s : Stack} (h : s.Marked) (value : Value) :
    Stack.pop (s.pushed value) = .ok value s := by
  have hs : { s with mark := min s.mark s.height } = s := Stack.ext rfl (Nat.min_eq_left h)
  rw [Stack.pop_pushed, hs]

/-- `apply` calls the quotation that has just been pushed. -/
theorem execute_apply_pushed (hs : s.Marked) {apply : String}
    (hl : s.dictionary.lookup? apply = some (.primitive .apply)) (call : Caller) :
    execute call apply (s.pushed (.quotation body)) =
      nameWord apply (call Primitive.apply.name body s) := by
  have hpop : onStack Stack.pop (s.pushed (.quotation body)) = .ok (.quotation body) s :=
    onStack_eq_ok.2 ⟨s.stack, hs.stack.pop_pushed _, rfl⟩
  have hstart : start .apply (s.pushed (.quotation body)) =
      .ok (.call Primitive.apply.name body) s := bind_of_ok hpop
  exact execute_of_only (s := s.pushed (.quotation body)) hl hstart rfl

/-- `iterate` calls the quotation so many times. -/
theorem execute_iterate_pushed (hs : s.Marked) (body : List Token) {iterate : String}
    {x : Float} {n : Nat}
    (hl : s.dictionary.lookup? iterate = some (.primitive .iterate))
    (hx : Arithmetic.count? x = some n) (call : Caller) :
    execute call iterate ((s.pushed (.quotation body)).pushed (.number x)) =
      nameWord iterate (times (call Primitive.iterate.name body) n s) := by
  let u := (s.pushed (.quotation body)).pushed (.number x)
  have hnumber : Stack.popNumber u.stack = .ok x (s.stack.pushed (.quotation body)) :=
    bind_of_ok ((hs.stack.pushed _).pop_pushed _)
  have hcount : Stack.popCount u.stack = .ok n (s.stack.pushed (.quotation body)) := by
    rw [Stack.popCount, bind_of_ok hnumber, hx]
    rfl
  have hbody : Stack.popQuotation (s.stack.pushed (.quotation body)) = .ok body s.stack :=
    Stack.popQuotation_eq_ok.2 (hs.stack.pop_pushed _)
  have htwo : Stack.require 2 u.stack = .ok () u.stack :=
    Stack.require_eq_ok.2 ⟨Nat.le_add_left 2 _, rfl⟩
  -- count and quotation come off, and what is left is the session before they were pushed
  have hstart : start .iterate u = .ok (.again Primitive.iterate.name body n) s := by
    rw [start]
    refine (bind_of_ok (a := (n, body)) (t := s) ?_).trans rfl
    refine onStack_eq_ok.2 ⟨s.stack, ?_, rfl⟩
    rw [bind_of_ok htwo, bind_of_ok hcount, bind_of_ok hbody]
    rfl
  exact execute_of_only (s := u) hl hstart rfl

/-- As often as the body has been called, so often it may be run in its place. -/
theorem inline_of_times (hb : Token.Nested body) {frame : String} {n : Nat}
    (h : times (callWithin s.room frame body) n s = .ok () t) :
    evaluate (List.replicate n body).flatten s = .ok () t := by
  induction n generalizing s with
  | zero =>
    rw [List.replicate_zero, List.flatten_nil, evaluate, run_nil]
    exact h
  | succ n ih =>
    rw [times] at h
    obtain ⟨_, u, hcall, hrest⟩ := bind_eq_ok.1 h
    -- the first copy does what the first call has done, and leaves as much room to the others
    have hbody := inline_of_call hcall
    rw [← room_of_evaluate hbody] at hrest
    rw [List.replicate_succ, List.flatten_cons, evaluate_append hb, bind_of_ok hbody]
    exact ih hrest

end Words

/-- A word may be replaced by its definition, and a quotation that is applied by its tokens: where
the word succeeds, they leave the same session, and where it fails, but not at the limit, they fail
with the same error, in whose trace the word is missing. Where a quotation is repeated with success,
so many copies of it leave the same session. -/
theorem extraction_preserves {s : Session} (hs : s.Underway) {body : List Token}
    (hb : Token.Nested body) (p : Nat → Text.Position) :
    (∀ name, s.dictionary.lookup? name = some (.user body) →
      Extracts s body [⟨.word name, p 0⟩] name) ∧
    (∀ apply, s.dictionary.lookup? apply = some (.primitive .apply) →
      Extracts s body (⟨.opener .brace, p 0⟩ :: (body ++
        [⟨.closer .brace, p 1⟩, ⟨.word apply, p 2⟩])) Primitive.apply.name) ∧
    ∀ iterate n x t, s.dictionary.lookup? iterate = some (.primitive .iterate) →
      Arithmetic.Denotes n x → n < 2 ^ 64 →
      evaluate (⟨.opener .brace, p 0⟩ :: (body ++
        [⟨.closer .brace, p 1⟩, ⟨.number x, p 2⟩, ⟨.word iterate, p 3⟩])) s = .ok () t →
      evaluate (List.replicate n body).flatten s = .ok () t := by
  refine ⟨?_, ?_, ?_⟩
  · intro name hl
    refine .of_call name hs.meets hb (.inl ?_)
    rw [evaluate_single, execute_user hl]
  · intro apply hl
    refine .of_call apply hs.meets hb (.inr ?_)
    rw [evaluate_quotation hb, evaluate_single]
    exact execute_apply_pushed hs.marked hl _
  · intro iterate n x t hl hx hn h
    have hcount := Arithmetic.count?_of_denotes hx hn
    have htimes := execute_iterate_pushed hs.marked body hl hcount (callWithin s.room)
    rw [evaluate_quotation hb, evaluate_number, evaluate_single] at h
    cases hr : times (callWithin s.room Primitive.iterate.name body) n s with
    | ok _ u =>
      rw [hr] at htimes
      cases h.symm.trans htimes
      exact inline_of_times hb hr
    | error e u =>
      rw [hr] at htimes
      cases h.symm.trans htimes

/-- A body that pushes a seven. -/
def sevenBody : List Token :=
  [⟨.number 7, ⟨1, 6⟩⟩]

/-- A session in which a word has been defined that pushes a seven. -/
def sevenSession : Session :=
  { Session.bare with dictionary := Dictionary.primitives.define "w" (.user sevenBody) }

theorem nested_sevenBody : Token.Nested sevenBody :=
  .plain rfl .nil

theorem reachable_sevenSession : sevenSession.Reachable := by
  have htokens : tokenize ",w \x7b 7 \x7d def" = .ok [⟨.quoted "w", ⟨1, 1⟩⟩,
      ⟨.opener .brace, ⟨1, 4⟩⟩, ⟨.number 7, ⟨1, 6⟩⟩, ⟨.closer .brace, ⟨1, 8⟩⟩,
      ⟨.word "def", ⟨1, 10⟩⟩] := by decide +kernel
  have hreference : push (.reference "w") .bare = .ok () (Session.bare.pushed (.reference "w")) :=
    rfl
  have hload : load ",w \x7b 7 \x7d def" .bare = .ok () sevenSession := by
    rw [load_of_tokens htokens, evaluate, run_quoted]
    refine (bind_of_ok hreference).trans ?_
    refine (evaluate_quotation nested_sevenBody _ _ _ (Session.bare.pushed _)).trans ?_
    rw [evaluate_single]
    exact execute_define _ "w" sevenBody (s := .bare) rfl (by decide +kernel)
  have hperform := perform_load hload
  have hreachable := Session.Reachable.perform (.load ",w \x7b 7 \x7d def") .bare
  rwa [hperform] at hreachable

theorem evaluate_sevenBody (s : Session) :
    evaluate sevenBody s = .ok () (s.pushed (.number 7)) := by
  rw [sevenBody, evaluate_number, evaluate, run_nil]
  rfl

theorem call_sevenBody {s : Session} (h : s.depth < s.settings.maxDepth) (frame : String) :
    callWithin s.room frame sevenBody s = .ok () (s.pushed (.number 7)) := by
  rw [callWithin_room, if_neg (Nat.not_le_of_lt h)]
  exact inFrame_of_ok (evaluate_sevenBody { s with depth := s.depth + 1 })

/-- The word, the quotation that is applied, and the quotation that is repeated twice. -/
theorem extraction_of_seven :
    Extracts sevenSession sevenBody [⟨.word "w", ⟨1, 1⟩⟩] "w" ∧
      Extracts sevenSession sevenBody (⟨.opener .brace, ⟨1, 1⟩⟩ :: (sevenBody ++
        [⟨.closer .brace, ⟨1, 1⟩⟩, ⟨.word "apply", ⟨1, 1⟩⟩])) "apply" ∧
      evaluate (List.replicate 2 sevenBody).flatten sevenSession =
        .ok () ((sevenSession.pushed (.number 7)).pushed (.number 7)) := by
  have hw : sevenSession.dictionary.lookup? "w" = some (.user sevenBody) := by decide +kernel
  have happly : sevenSession.dictionary.lookup? "apply" = some (.primitive .apply) := by
    decide +kernel
  have hiterate : sevenSession.dictionary.lookup? "repeat" = some (.primitive .iterate) := by
    decide +kernel
  have htwo : Arithmetic.Denotes 2 2 := by
    obtain ⟨h, hunpack⟩ : ∃ h, (2 : Float).toModel.unpack = .finite .positive (2 ^ 52) (-51) h :=
      ⟨_, rfl⟩
    rw [Arithmetic.Denotes, hunpack]
    exact ⟨rfl, by norm_num⟩
  have hcalls : evaluate (⟨.opener .brace, ⟨1, 1⟩⟩ :: (sevenBody ++
      [⟨.closer .brace, ⟨1, 1⟩⟩, ⟨.number 2, ⟨1, 1⟩⟩, ⟨.word "repeat", ⟨1, 1⟩⟩])) sevenSession =
        .ok () ((sevenSession.pushed (.number 7)).pushed (.number 7)) := by
    have hs := reachable_sevenSession.marked
    have hdepth : sevenSession.depth < sevenSession.settings.maxDepth := by decide
    have htimes : times (callWithin sevenSession.room "repeat" sevenBody) 2 sevenSession =
        .ok () ((sevenSession.pushed (.number 7)).pushed (.number 7)) := by
      have hagain : callWithin sevenSession.room "repeat" sevenBody
          (sevenSession.pushed (.number 7)) =
          .ok () ((sevenSession.pushed (.number 7)).pushed (.number 7)) :=
        call_sevenBody (s := sevenSession.pushed _) hdepth "repeat"
      rw [times, bind_of_ok (call_sevenBody hdepth "repeat"), times, bind_of_ok hagain]
      rfl
    rw [evaluate_quotation nested_sevenBody, evaluate_number, evaluate_single]
    refine (execute_iterate_pushed hs _ hiterate (Arithmetic.count?_of_denotes htwo ?_) _).trans ?_
    · decide
    · exact congrArg (nameWord "repeat") htimes
  have h := extraction_preserves reachable_sevenSession.underway nested_sevenBody fun _ => ⟨1, 1⟩
  exact ⟨h.1 "w" hw, h.2.1 "apply" happly,
    h.2.2 "repeat" 2 2 _ hiterate htwo (by decide) hcalls⟩

end StackCalc
