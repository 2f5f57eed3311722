import StackCalc.Proofs.Diagnostics
import StackCalc.Proofs.Marks
import StackCalc.Proofs.Moments.Standards

/-!
Sessions in the middle of an evaluation. At every moment the brackets match in all that is stored
and in all that is left to run, and no mark is above the height of its stack.
-/
namespace StackCalc

open Eval Moment

/-- The brackets of all quotations and definitions match. -/
def Standard.nested : Standard :=
  .ofBodies Token.Nested

namespace Standard

theorem value_nested_quotation {body : List Token} :
    nested.value (.quotation body) ↔ Token.Nested body :=
  value_ofBodies_quotation

theorem reads_nested : nested.Reads := by
  apply reads_ofBodies Token.Nested.of_plain
  intro bracket position rest body after h hsplit
  obtain ⟨body, q, after, -, hbody, hafter, hparts⟩ := h.splitAtCloser
  cases hsplit.symm.trans hparts
  exact ⟨hbody, hafter⟩

end Standard

/-- What tokens with matching brackets raise names the word that failed. -/
theorem exists_word_of_evaluate {s t : Session} {tokens : List Token} {error : EvalError}
    (hs : s.Meets .nested) (hn : Token.Nested tokens)
    (h : evaluate tokens s = .error error t) : ∃ word, error.word = some word := by
  have hend := leads_evaluate tokens [] s
  rw [h] at hend
  obtain ⟨m, raised, frames, u, hm, hr, hunwinds⟩ := hend.exists_raises rfl nofun
  -- every frame that was open is unwound, and the error is noted in each
  obtain ⟨left, hleft, herror⟩ := Leads.unwinds hunwinds
  obtain rfl : frames = left := hleft.trans (List.append_nil left)
  obtain rfl : error = noted frames raised := Task.raise.inj herror
  have hmeets : m.Meets .nested :=
    hm.preserves ⟨hs, Standard.value_nested_quotation.2 hn, List.forall_mem_nil _⟩
      fun _ => .advance Standard.reads_nested
  have hordered : Ordered ⟨.run tokens, [], s⟩ m :=
    hm.preserves ⟨trivial, trivial⟩ Ordered.advance
  rcases hr.found_or_unmatched hm hordered rfl with hfound | ⟨-, tokens, htask, hunmatched⟩
  · obtain ⟨word, hword, -⟩ := hfound.word
    exact ⟨word, hword⟩
  · have htokens := hmeets.task
    rw [htask] at htokens
    exact absurd (Standard.value_nested_quotation.1 htokens) hunmatched

/-! What all sessions have that a host can come by. -/

namespace Session
variable {s : Session}

/-- What a new session has, and what neither a source text nor the emptying of the stack takes
away. -/
theorem Reachable.preserves {P : Session → Prop} (h : s.Reachable)
    (hfresh : ∀ settings input output, P (fresh settings .primitives [] input output))
    (hload : ∀ source s, P s → P (finalState (load source s)))
    (hclear : ∀ s : Session, P s → P s.clearStack) : P s := by
  have hperform (request : Request) (s : Session) (hs : P s) : P (s.perform request).2 := by
    cases request with
    | load source =>
      rw [state_perform_load]
      exact hload source s hs
    | evaluateLine source =>
      -- what a line shows is a copy of what loading it leaves
      have hkeeps : finalState (evaluateLine source s) = finalState (load source s) :=
        finalState_bind_of_keeps fun _ _ => rfl
      rw [state_perform, Request.act, hkeeps]
      exact hload source s hs
    | clearStack =>
      rw [state_perform]
      exact hclear s hs
  have hall (requests : List Request) (s : Session) (hs : P s) :
      P (s.performAll requests).2 := by
    induction requests generalizing s with
    | nil => exact hs
    | cons request rest ih => exact ih _ (hperform request s hs)
  induction h with
  | bare => exact hfresh _ _ _
  | start hstart =>
    rw [eq_performAll_of_start hstart]
    exact hall _ _ (hfresh _ _ _)
  | perform request _ ih => exact hperform request _ ih

theorem marked_fresh (settings : Settings) (input : List UInt8) (output : Output) :
    (fresh settings .primitives [] input output).Marked :=
  ⟨Stack.marked_empty, List.forall_mem_nil _⟩

theorem Marked.of_leads {m n : Moment} (h : m.Leads n) (hm : m.session.Marked) :
    n.session.Marked :=
  h.preserves hm fun _ => marked_advance

theorem Reachable.marked (h : s.Reachable) : s.Marked := by
  refine h.preserves marked_fresh ?_ fun s hs => ⟨Stack.marked_empty, hs.enclosing⟩
  intro source s hs
  cases ht : tokenize source with
  | error fault =>
    rw [load_of_fault ht]
    exact hs
  | ok tokens =>
    have hend : (ended [] (load source s)).session.Marked :=
      Marked.of_leads (leads_load ht s) ⟨hs.stack, hs.enclosing⟩
    cases hl : load source s <;> rw [hl] at hend <;> exact hend

theorem WellFormed.meets (h : s.WellFormed) : s.Meets .nested where
  stack v hv _ hw := (h.stack v hv _ hw).nested
  enclosing outer ho v hv _ hw := (h.enclosing outer ho v hv _ hw).nested
  dictionary _ _ hl := (h.dictionary.bodies hl).nested

/-- No evaluation is going on in the session, but one may start. -/
def Waits (s : Session) : Prop :=
  s.Reachable ∨ ∃ settings input output, s = fresh settings .primitives [] input output

/-- The session comes up at some moment of the evaluation of a source text. -/
def Underway (s : Session) : Prop :=
  ∃ host source tokens m, Waits host ∧ tokenize source = .ok tokens ∧
    (outset tokens host).Leads m ∧ m.session = s

theorem Waits.wellFormed (h : s.Waits) : s.WellFormed := by
  rcases h with h | ⟨settings, input, output, rfl⟩
  · exact h.wellFormed
  · exact wellFormed_fresh settings input output

theorem Waits.marked (h : s.Waits) : s.Marked := by
  rcases h with h | ⟨settings, input, output, rfl⟩
  · exact h.marked
  · exact marked_fresh settings input output

theorem Underway.meets (h : s.Underway) : s.Meets .nested := by
  obtain ⟨host, source, tokens, m, hw, ht, hm, rfl⟩ := h
  have hn := (Token.isProgram_of_tokenize ht).nested
  have hmeets : m.Meets .nested :=
    .of_leads Standard.reads_nested hw.wellFormed.meets (Standard.value_nested_quotation.2 hn) hm
  exact hmeets.session

theorem Underway.marked (h : s.Underway) : s.Marked := by
  obtain ⟨host, source, tokens, m, hw, ht, hm, rfl⟩ := h
  exact Marked.of_leads hm ⟨hw.marked.stack, hw.marked.enclosing⟩

/-- Before the first step of an evaluation the session is the one that waits. -/
theorem Reachable.underway (h : s.Reachable) : s.Underway := by
  have hrest : s.AtRest := h.preserves (fun _ _ _ => ⟨rfl, rfl⟩)
    (fun source s hs => (Rests.load source s hs).1) fun s hs => ⟨hs.enclosing, hs.depth⟩
  refine ⟨s, "", [], outset [] s, .inl h, by decide +kernel, .refl, ?_⟩
  rw [outset, ← hrest.depth]

end Session

end StackCalc
