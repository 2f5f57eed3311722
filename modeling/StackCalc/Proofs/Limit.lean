import StackCalc.Proofs.Log.Evaluator
import StackCalc.Proofs.Reachable
import StackCalc.Proofs.Simulation.Evaluation

/-!
The limit on nesting only cuts evaluations off. An evaluation that does not run into its limit goes
the same way under every larger one, and at any depth only the levels that are left matter.
-/
namespace StackCalc

open Eval

/-- The session under another limit. -/
def Session.limitedTo (limit : Nat) (s : Session) : Session :=
  { s with settings := { s.settings with maxDepth := limit } }

/-- The session under another limit and at another depth. -/
def Session.within (limit depth : Nat) (s : Session) : Session :=
  { s.limitedTo limit with depth }

/-- The error without the number of the limit that it may report. -/
def EvalError.unnumbered (error : EvalError) : EvalError :=
  match error.kind with
  | .recursionLimit _ => { error with kind := .recursionLimit 0 }
  | _ => error

section Results
variable {α : Type}

/-- The evaluation ended at the limit. -/
def CutOff (r : EStateM.Result EvalError Session α) : Prop :=
  ∃ error t limit, r = .error error t ∧ error.kind = .recursionLimit limit

/-- The result with another error in place of an error, and another session in place of the one that
is left. -/
def mapResult (f : EvalError → EvalError) (g : Session → Session) :
    EStateM.Result EvalError Session α → EStateM.Result EvalError Session α
  | .ok a t => .ok a (g t)
  | .error error t => .error (f error) (g t)

theorem mapResult_congr {r : EStateM.Result EvalError Session α} {f : EvalError → EvalError}
    {g g' : Session → Session} (h : g (finalState r) = g' (finalState r)) :
    mapResult f g r = mapResult f g' r := by
  cases r with
  | ok a t => exact congrArg (EStateM.Result.ok a) h
  | error error t => exact congrArg (EStateM.Result.error (f error)) h

end Results

/-! Values that are the same but for equal tokens are the same. -/

theorem eq_of_forall₂_of_forall {α : Type} {R : α → α → Prop} {l l' : List α}
    (h : List.Forall₂ R l l') (hR : ∀ a ∈ l, ∀ b, R a b → a = b) : l = l' := by
  induction h with
  | nil => rfl
  | cons hab _ ih =>
    obtain ⟨ha, hl⟩ := List.forall_mem_cons.1 hR
    rw [ha _ hab, ih hl]

theorem Value.Corresponds.eq {v w : Value} (h : Corresponds Eq v w) : v = w := by
  induction v using Value.induction generalizing w with
  | number x =>
    cases h
    rfl
  | sequence items ih =>
    cases h with
    | sequence hi => rw [eq_of_forall₂_of_forall hi fun item hm _ h => ih item hm h]
  | quotation body =>
    cases h with
    | quotation hb => rw [eq_of_forall₂_of_forall hb fun _ _ _ h => h]
  | reference name =>
    cases h
    rfl

theorem Stack.Corresponds.eq {s t : Stack} (h : Corresponds Eq s t) : t = s := by
  apply Stack.ext
  · exact (eq_of_forall₂_of_forall h.values fun _ _ _ h => h.eq).symm
  · exact h.mark

namespace Simulation

/-- Nothing differs between the sessions but the limit and the depth. -/
def limits (settings : Settings) (limit limit' : Nat) (excused : ErrorKind → Prop) :
    Simulation where
  token := Eq
  dictionary := Eq
  first := { settings with maxDepth := limit }
  second := { settings with maxDepth := limit' }
  excused := excused
  kind_eq h := by rw [h]
  lookup := by
    rintro d _ rfl name
    cases d.lookup? name with
    | none => exact .none
    | some definition =>
      refine .some ?_
      cases definition with
      | primitive operation => exact .primitive operation
      | user body => exact .user (List.forall₂_refl body)
  define := by
    rintro d _ body body' rfl hb name
    rw [eq_of_forall₂_of_forall hb fun _ _ _ h => h]
  addAlias := by
    rintro d _ e name source rfl h
    exact ⟨e, h, rfl⟩

variable {settings : Settings} {limit limit' : Nat} {excused : ErrorKind → Prop} {s t t' : Session}

theorem related_within (excused : ErrorKind → Prop) (s : Session)
    (limit depth limit' depth' : Nat) :
    (limits s.settings limit limit' excused).Related (s.within limit depth)
      (s.within limit' depth') where
  first := rfl
  second := rfl
  dictionary := rfl
  stack := Stack.corresponds_refl (fun _ => rfl) _
  enclosing := List.forall₂_same.2 fun _ _ => Stack.corresponds_refl (fun _ => rfl) _
  input := rfl
  output := rfl

theorem Related.eq_within (h : (limits settings limit limit' excused).Related t t') :
    t' = t.within limit' t'.depth := by
  obtain ⟨settings₁, dictionary, stack, enclosing, depth, input, output⟩ := t
  obtain ⟨settings₂, dictionary', stack', enclosing', depth', input', output'⟩ := t'
  obtain ⟨hfirst, hsecond, hd, hs, he, hi, ho⟩ := h
  have hstack : stack' = stack := hs.eq
  have henclosing : enclosing = enclosing' :=
    eq_of_forall₂_of_forall he fun _ _ _ h => h.eq.symm
  simp only [limits] at hfirst hsecond hd hi ho
  subst hfirst hsecond hd hstack henclosing hi ho
  rfl

/-- The two errors are one, or they report the two limits. -/
theorem Errors.eq_or_limit {error error' : EvalError}
    (h : (limits settings limit limit' excused).Errors error error') :
    error' = error ∨ error.kind = .recursionLimit limit ∧
      error' = { error with kind := .recursionLimit limit' } := by
  obtain ⟨kind, word, trace⟩ := error
  obtain ⟨kind', word', trace'⟩ := error'
  obtain ⟨hk, hw, ht⟩ := h
  simp only at hk hw ht
  subst hw ht
  cases hk with
  | same kind => exact .inl rfl
  | limit => exact .inr ⟨rfl, rfl⟩
  | unexpectedCloser ht =>
    left
    rw [(Token.mk.inj ht).2]
  | unclosed ht =>
    left
    rw [(Token.mk.inj ht).2]

end Simulation

section Evaluate
variable {limit limit' depth depth' : Nat}

theorem matches_within (excused : ErrorKind → Prop) (s : Session) (tokens : List Token)
    (hle : limit - depth ≤ limit' - depth')
    (hlt : limit - depth < limit' - depth' → ∀ n, excused (.recursionLimit n)) :
    (Simulation.limits s.settings limit limit' excused).Matches Eq
      (evaluate tokens (s.within limit depth)) (evaluate tokens (s.within limit' depth')) := by
  have htokens : List.Forall₂ Eq tokens tokens := List.forall₂_refl tokens
  have hrelated := Simulation.related_within excused s limit depth limit' depth'
  exact hrelated.evaluate hle hlt htokens

/-- Where the second run has no fewer levels left, it goes as the first one does unless that is cut
off. -/
theorem evaluate_within_of_le (s : Session) (tokens : List Token)
    (h : limit - depth ≤ limit' - depth') (hc : ¬ CutOff (evaluate tokens (s.within limit depth))) :
    evaluate tokens (s.within limit' depth') =
      mapResult id (Session.within limit' depth') (evaluate tokens (s.within limit depth)) := by
  have hm := matches_within (fun kind => ∃ n, kind = .recursionLimit n) s tokens h
    fun _ n => ⟨n, rfl⟩
  have hdepth := depth_evaluate tokens (s.within limit' depth')
  generalize evaluate tokens (s.within limit depth) = r at hm hc
  generalize evaluate tokens (s.within limit' depth') = r' at hm hdepth
  cases hm with
  | @ok a _ t t' ha ht =>
    have hd : t'.depth = depth' := hdepth
    rw [← ha, ht.eq_within, hd]
    rfl
  | @error error error' t t' he ht =>
    have hd : t'.depth = depth' := hdepth
    -- errors differ only at the limit, which the first run has not reached
    have herror : error' = error := by
      rcases he.eq_or_limit with heq | ⟨hk, -⟩
      · exact heq
      · exact absurd ⟨error, t, limit, rfl, hk⟩ hc
    rw [herror, ht.eq_within, hd]
    rfl
  | @excused error t _ hx =>
    obtain ⟨n, hk⟩ := hx
    exact absurd ⟨error, t, n, rfl, hk⟩ hc

/-- Where both runs have as many levels left, they go the same way, even to the limit. -/
theorem evaluate_within_of_eq (s : Session) (tokens : List Token)
    (h : limit - depth = limit' - depth') :
    mapResult EvalError.unnumbered (Session.within 0 0) (evaluate tokens (s.within limit' depth')) =
      mapResult EvalError.unnumbered (Session.within 0 0)
        (evaluate tokens (s.within limit depth)) := by
  have hm := matches_within (fun _ => False) s tokens (Nat.le_of_eq h)
    fun hlt => absurd h (Nat.ne_of_lt hlt)
  generalize evaluate tokens (s.within limit depth) = r at hm
  generalize evaluate tokens (s.within limit' depth') = r' at hm
  cases hm with
  | ok ha ht =>
    rw [← ha, ht.eq_within]
    rfl
  | @error error error' t t' he ht =>
    have herror : error'.unnumbered = error.unnumbered := by
      rcases he.eq_or_limit with rfl | ⟨hk, rfl⟩
      · rfl
      · simp only [EvalError.unnumbered, hk]
    rw [mapResult, mapResult, herror, ht.eq_within]
    rfl
  | excused hx => exact hx.elim

end Evaluate

section Load
variable {limit limit' : Nat}

theorem load_limitedTo (s : Session) (source : String) (h : limit ≤ limit')
    (hc : ¬ CutOff (load source (s.limitedTo limit))) :
    load source (s.limitedTo limit') =
      mapResult id (Session.limitedTo limit') (load source (s.limitedTo limit)) := by
  cases ht : tokenize source with
  | error fault =>
    rw [load_of_fault ht, load_of_fault ht]
    rfl
  | ok tokens =>
    rw [load_of_tokens ht] at hc
    rw [load_of_tokens ht, load_of_tokens ht]
    refine (evaluate_within_of_le s tokens (Nat.sub_le_sub_right h 0) hc).trans ?_
    apply mapResult_congr
    -- the run has come back to the outermost level
    have hd := depth_evaluate tokens (s.within limit 0)
    show Session.within limit' 0 (finalState (evaluate tokens (s.within limit 0))) = _
    generalize finalState (evaluate tokens (s.within limit 0)) = t at hd ⊢
    have hd : t.depth = 0 := hd
    rw [← hd]
    rfl

theorem evaluateLine_limitedTo (s : Session) (source : String) (h : limit ≤ limit')
    (hc : ¬ CutOff (evaluateLine source (s.limitedTo limit))) :
    evaluateLine source (s.limitedTo limit') =
      mapResult id (Session.limitedTo limit') (evaluateLine source (s.limitedTo limit)) := by
  have hload : ¬ CutOff (load source (s.limitedTo limit)) := by
    rintro ⟨error, t, n, hl, hk⟩
    apply hc
    exact ⟨error, t, n, evaluateLine_of_error hl, hk⟩
  have hl := load_limitedTo s source h hload
  cases hr : load source (s.limitedTo limit) with
  | ok a t =>
    rw [hr] at hl
    rw [evaluateLine_of_ok hl, evaluateLine_of_ok hr]
    rfl
  | error error t =>
    rw [hr] at hl
    rw [evaluateLine_of_error hl, evaluateLine_of_error hr]
    rfl

end Load

/-- The limit on nesting only cuts off. Unless loading a source or evaluating a line ends at the
limit, it has the same result under every larger limit: the same values or the same error, and a
session that differs in nothing but the limit. At any depth an evaluation depends on no more than
the levels that are left: with at least as many levels it goes the same way unless it is cut off,
and with as many it goes the same way altogether, but for the number that an error reports as the
limit. -/
theorem limit_cuts_off (s : Session) :
    (∀ source limit limit', limit ≤ limit' →
      (¬ CutOff (load source (s.limitedTo limit)) →
        load source (s.limitedTo limit') =
          mapResult id (Session.limitedTo limit') (load source (s.limitedTo limit))) ∧
      (¬ CutOff (evaluateLine source (s.limitedTo limit)) →
        evaluateLine source (s.limitedTo limit') =
          mapResult id (Session.limitedTo limit') (evaluateLine source (s.limitedTo limit)))) ∧
    ∀ tokens limit depth limit' depth',
      (limit - depth ≤ limit' - depth' → ¬ CutOff (evaluate tokens (s.within limit depth)) →
        evaluate tokens (s.within limit' depth') =
          mapResult id (Session.within limit' depth') (evaluate tokens (s.within limit depth))) ∧
      (limit - depth = limit' - depth' →
        mapResult EvalError.unnumbered (Session.within 0 0)
            (evaluate tokens (s.within limit' depth')) =
          mapResult EvalError.unnumbered (Session.within 0 0)
            (evaluate tokens (s.within limit depth))) := by
  refine ⟨fun source limit limit' h => ⟨?_, ?_⟩, fun tokens limit depth limit' depth' => ⟨?_, ?_⟩⟩
  · exact load_limitedTo s source h
  · exact evaluateLine_limitedTo s source h
  · exact evaluate_within_of_le s tokens
  · exact evaluate_within_of_eq s tokens

/-- A session with one word, which is called at one level of nesting. -/
def callSession : Session where
  dictionary := Dictionary.empty.define "w" (.user [⟨.quoted "x", ⟨1, 1⟩⟩])

/-- One level is enough for the word, so another limit makes no difference. -/
theorem load_call_limits : 1 ≤ 2 ∧ ¬ CutOff (load "w" (callSession.limitedTo 1)) ∧
    load "w" (callSession.limitedTo 2) =
      mapResult id (Session.limitedTo 2) (load "w" (callSession.limitedTo 1)) := by
  have htokens : tokenize "w" = .ok [⟨.word "w", ⟨1, 1⟩⟩] := by decide +kernel
  have hw : (callSession.within 1 0).dictionary.lookup? "w" =
      some (.user [⟨.quoted "x", ⟨1, 1⟩⟩]) := by
    simp [callSession, Session.within, Session.limitedTo, Dictionary.lookup?_define]
  have hroom : (callSession.within 1 0).room = 1 := rfl
  have hbody : ∃ t, run (callWithin 0) [⟨.quoted "x", ⟨1, 1⟩⟩] (callSession.within 1 1) =
      .ok () t := by
    rw [run_quoted, run_nil]
    exact ⟨_, rfl⟩
  have hload : ∃ t, load "w" (callSession.limitedTo 1) = .ok () t := by
    obtain ⟨t, ht⟩ := hbody
    have hcall : execute (callWithin 1) "w" (callSession.within 1 0) =
        .ok () { t with depth := t.depth - 1 } := by
      rw [execute_user hw]
      exact inFrame_of_ok ht
    rw [load_of_tokens htokens]
    refine ⟨{ t with depth := t.depth - 1 }, ?_⟩
    show evaluate _ (callSession.within 1 0) = _
    rw [evaluate, hroom, run_word, bind_of_ok hcall, run_nil]
    rfl
  have hc : ¬ CutOff (load "w" (callSession.limitedTo 1)) := by
    obtain ⟨t, ht⟩ := hload
    rintro ⟨error, u, n, he, -⟩
    rw [ht] at he
    cases he
  exact ⟨by decide, hc, ((limit_cuts_off callSession).1 "w" 1 2 (by decide)).1 hc⟩

end StackCalc
