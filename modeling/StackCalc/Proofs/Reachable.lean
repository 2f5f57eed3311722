import StackCalc.Proofs.Residue
import StackCalc.Proofs.Safety

/-!
Sessions that a host can come by. Whatever they have been asked to do, all that they store is well
formed, and so the brackets of a program are found fault with before it runs, or not at all.
-/
namespace StackCalc

open Eval

/-- A session that has started, and that has been asked for anything since, successful or not. -/
inductive Session.Reachable : Session → Prop where
  | bare : Reachable .bare
  | start {settings : Settings} {input : List UInt8} {output : Output} {s : Session} :
      Session.start settings input output = .ok s → Reachable s
  | perform {s : Session} (request : Request) : Reachable s → Reachable (s.perform request).2

theorem SafeResult.wellFormed {α : Type} {E : EvalError → Dictionary → Prop} {P : α → Prop}
    {r : EStateM.Result EvalError Session α} (h : SafeResult E P r) :
    (finalState r).WellFormed := by
  cases h with
  | ok h => exact h.2
  | error h => exact h.2

/-- A last step that keeps the state leaves what the step before it left. -/
theorem finalState_bind_of_keeps {ε σ α β : Type} {x : EStateM ε σ α} {f : α → EStateM ε σ β}
    {s : σ} (hf : ∀ a t, finalState (f a t) = t) :
    finalState ((x >>= f) s) = finalState (x s) := by
  cases h : x s with
  | ok a t => rw [bind_of_ok h, hf, finalState]
  | error e t => rw [bind_of_error h, finalState, finalState]

section Load
variable {source : String} {s : Session}

theorem load_of_fault {fault : ParseFault} (h : tokenize source = .error fault) (s : Session) :
    load source s = .error { kind := .parse fault } s := by
  rw [load, h]
  rfl

theorem load_of_tokens {tokens : List Token} (h : tokenize source = .ok tokens) (s : Session) :
    load source s = evaluate tokens { s with depth := 0 } := by
  rw [load, h]
  rfl

theorem evaluateLine_of_ok {t : Session} (h : load source s = .ok () t) :
    evaluateLine source s = .ok t.stack.fromBottom t :=
  bind_of_ok h

theorem evaluateLine_of_error {error : EvalError} {t : Session}
    (h : load source s = .error error t) :
    evaluateLine source s = .error error t :=
  bind_of_error h

theorem safeResult_load {tokens : List Token} (h : tokenize source = .ok tokens)
    (hs : s.WellFormed) : SafeResult Located (fun _ => True) (load source s) := by
  rw [load_of_tokens h]
  exact Safe.evaluate (Token.isProgram_of_tokenize h) _ { hs with }

theorem wellFormed_load (source : String) (hs : s.WellFormed) :
    (finalState (load source s)).WellFormed := by
  cases ht : tokenize source with
  | error fault =>
    rw [load_of_fault ht]
    exact hs
  | ok tokens => exact (safeResult_load ht hs).wellFormed

end Load

namespace Session
variable {s : Session}

theorem state_perform (request : Request) (s : Session) :
    (s.perform request).2 = finalState (request.act s) := by
  rw [Session.perform]
  cases request.act s <;> rfl

theorem state_perform_load (source : String) (s : Session) :
    (s.perform (.load source)).2 = finalState (load source s) := by
  rw [state_perform]
  exact finalState_bind_of_keeps fun _ _ => rfl

theorem WellFormed.perform (hs : s.WellFormed) (request : Request) :
    (s.perform request).2.WellFormed := by
  cases request with
  | load source =>
    rw [state_perform_load]
    exact wellFormed_load source hs
  | evaluateLine source =>
    have hkeeps : finalState (evaluateLine source s) = finalState (load source s) :=
      finalState_bind_of_keeps fun _ _ => rfl
    rw [state_perform, Request.act, hkeeps]
    exact wellFormed_load source hs
  | clearStack =>
    rw [state_perform]
    exact { hs with stack := Stack.wellFormed_empty }

theorem WellFormed.performAll (hs : s.WellFormed) (requests : List Request) :
    (s.performAll requests).2.WellFormed := by
  induction requests generalizing s with
  | nil => exact hs
  | cons request rest ih => exact ih (hs.perform request)

theorem wellFormed_fresh (settings : Settings) (input : List UInt8) (output : Output) :
    (fresh settings .primitives [] input output).WellFormed where
  stack := Stack.wellFormed_empty
  enclosing := List.forall_mem_nil _
  dictionary := Dictionary.wellFormed_primitives

theorem Reachable.wellFormed (h : s.Reachable) : s.WellFormed := by
  induction h with
  | bare => exact wellFormed_fresh _ _ _
  | start hstart =>
    rw [eq_performAll_of_start hstart]
    exact (wellFormed_fresh _ _ _).performAll _
  | perform request _ ih => exact ih.perform request

end Session

/-- Whatever a session has been asked to do, all quotations on its stack, within sequences too, and
all definitions of its words are properly nested. So no program that the reader accepts runs into a
bracket without a partner: it can only find fault with a line of input, and each of its errors names
the word that failed. An error without a word is the reader's, and nothing has changed then. -/
theorem wellBracketed_of_reachable {s : Session} (h : s.Reachable) :
    (∀ v ∈ s.stack.values, ∀ body, (Value.quotation body).Within v → Token.Nested body) ∧
      (∀ name body, s.dictionary.lookup? name = some (.user body) → Token.Nested body) ∧
      ∀ source,
        (∀ fault, tokenize source = .error fault →
          load source s = .error { kind := .parse fault } s) ∧
        (∀ tokens error t, tokenize source = .ok tokens → load source s = .error error t →
          (∃ word, error.word = some word) ∧
            ∀ fault, error.kind = .parse fault → ∃ word line, error.word = some word ∧
              t.dictionary.lookup? word = some (.primitive .readNumber) ∧
              fault = .notANumber line) ∧
        ∀ error t, load source s = .error error t → error.word = none →
          t = s ∧ ∃ fault, tokenize source = .error fault ∧ error.kind = .parse fault := by
  have hs := h.wellFormed
  -- whatever fails once there are tokens fails at a word
  have hlocated {source : String} {tokens : List Token} {error : EvalError} {t : Session}
      (ht : tokenize source = .ok tokens) (hl : load source s = .error error t) :
      Located error t.dictionary := by
    have hr := safeResult_load ht hs
    rw [hl] at hr
    cases hr with
    | error h => exact h.1
  refine ⟨fun v hv body hw => (hs.stack v hv _ hw).nested,
    fun name body hb => (hs.dictionary.bodies hb).nested, fun source => ⟨?_, ?_, ?_⟩⟩
  · exact fun fault hf => load_of_fault hf s
  · exact fun tokens error t ht hl => ⟨(hlocated ht hl).word, (hlocated ht hl).input⟩
  · intro error t hl hw
    cases ht : tokenize source with
    | error fault =>
      rw [load_of_fault ht] at hl
      cases hl
      exact ⟨rfl, fault, rfl, rfl⟩
    | ok tokens =>
      obtain ⟨word, hword⟩ := (hlocated ht hl).word
      rw [hw] at hword
      cases hword

/-- A session with a user word, a quotation, and a quotation within a sequence. Its definition and
its quotations are nested, and a program that uses them fails at the one word that is not known. -/
theorem wellBracketed_of_definition :
    let s := (Session.bare.perform
      (.load ",w \x7b dup \x7d def [ \x7b add \x7d ] \x7b w \x7d")).2
    s.stack.values = [.quotation [⟨.word "w", ⟨1, 30⟩⟩],
        .sequence [.quotation [⟨.word "add", ⟨1, 20⟩⟩]]] ∧
      s.dictionary.lookup? "w" = some (.user [⟨.word "dup", ⟨1, 6⟩⟩]) ∧
      (Token.Nested [⟨.word "w", ⟨1, 30⟩⟩] ∧ Token.Nested [⟨.word "add", ⟨1, 20⟩⟩] ∧
        Token.Nested [⟨.word "dup", ⟨1, 6⟩⟩]) ∧
      ∃ error t, load "apply ghost" s = .error error t ∧ error.kind = .unknownWord "ghost" ∧
        ∃ word, error.word = some word := by
  intro s
  have hvalues : s.stack.values = [.quotation [⟨.word "w", ⟨1, 30⟩⟩],
      .sequence [.quotation [⟨.word "add", ⟨1, 20⟩⟩]]] := by decide +kernel
  have hword : s.dictionary.lookup? "w" = some (.user [⟨.word "dup", ⟨1, 6⟩⟩]) := by
    decide +kernel
  have htokens : tokenize "apply ghost" =
      .ok [⟨.word "apply", ⟨1, 1⟩⟩, ⟨.word "ghost", ⟨1, 7⟩⟩] := by decide +kernel
  have hfails : failure? (load "apply ghost" s) =
      some { kind := .unknownWord "ghost", word := some "ghost" } := by decide +kernel
  obtain ⟨t, hload⟩ := failure?_eq_some.1 hfails
  have hreachable : s.Reachable := .perform _ .bare
  obtain ⟨hstack, hdefinitions, hsources⟩ := wellBracketed_of_reachable hreachable
  rw [hvalues] at hstack
  refine ⟨hvalues, hword, ⟨hstack _ List.mem_cons_self _ (.self _), ?_, hdefinitions _ _ hword⟩,
    _, t, hload, rfl, ((hsources _).2.1 _ _ t htokens hload).1⟩
  exact hstack _ (List.mem_cons_of_mem _ List.mem_cons_self) _
    (.item List.mem_cons_self (.self _))

end StackCalc
