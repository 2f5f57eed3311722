import StackCalc.Proofs.Log.Evaluator
import StackCalc.Proofs.Reachable
import StackCalc.Proofs.Simulation.Evaluation
import StackCalc.Proofs.Unplaced

/-!
Layout does not matter. Programs of the same kinds of tokens do the same wherever their tokens
stand, in sessions that differ only in places. The evaluator would tell the place of a bracket
without a partner, but well-formed sessions and programs that the reader accepts have none.
-/
namespace StackCalc

open Eval

def Token.SameKind (token token' : Token) : Prop :=
  token'.kind = token.kind

section Lists
variable {α β : Type} {R : α → α → Prop} {f : α → β}

/-- Lists are related item by item if they have the same image, where the relation says just that of
the items. -/
theorem forall₂_iff_map_eq {l l' : List α} (h : ∀ a ∈ l, ∀ b, R a b ↔ f b = f a) :
    List.Forall₂ R l l' ↔ l'.map f = l.map f := by
  induction l generalizing l' with
  | nil => rw [List.forall₂_nil_left_iff, List.map_nil, List.map_eq_nil_iff]
  | cons a l ih =>
    obtain ⟨ha, hl⟩ := List.forall_mem_cons.1 h
    cases l' with
    | nil => simp
    | cons b l' =>
      rw [List.forall₂_cons, ha b, ih hl, List.map_cons, List.map_cons, List.cons.injEq]

theorem Token.forall₂_sameKind_iff {tokens tokens' : List Token} :
    List.Forall₂ SameKind tokens tokens' ↔ tokens'.map unplaced = tokens.map unplaced := by
  refine forall₂_iff_map_eq fun token _ token' => ?_
  constructor
  · intro h
    rw [unplaced, unplaced, h]
  · intro h
    exact (Token.mk.inj h).1

theorem Token.forall₂_sameKind_iff_kinds {tokens tokens' : List Token} :
    List.Forall₂ SameKind tokens tokens' ↔ tokens'.map (·.kind) = tokens.map (·.kind) :=
  forall₂_iff_map_eq fun _ _ _ => Iff.rfl

end Lists

theorem Value.corresponds_iff {v w : Value} :
    v.Corresponds Token.SameKind w ↔ w.unplaced = v.unplaced := by
  induction v using Value.induction generalizing w with
  | number x =>
    constructor
    · rintro ⟨⟩
      rfl
    · intro h
      cases w with
      | number y =>
        obtain rfl := number.inj h
        exact .number y
      | _ => cases h
  | sequence items ih =>
    have hitems (items' : List Value) :
        List.Forall₂ (Corresponds Token.SameKind) items items' ↔
          unplacedItems items' = unplacedItems items := by
      rw [unplacedItems_eq_map, unplacedItems_eq_map]
      exact forall₂_iff_map_eq fun item hm _ => ih item hm
    constructor
    · intro h
      cases h with
      | sequence hi => rw [unplaced, unplaced, (hitems _).1 hi]
    · intro h
      cases w with
      | sequence items' => exact .sequence ((hitems items').2 (sequence.inj h))
      | _ => cases h
  | quotation body =>
    constructor
    · intro h
      cases h with
      | quotation hb => rw [unplaced, unplaced, Token.forall₂_sameKind_iff.1 hb]
    · intro h
      cases w with
      | quotation body' => exact .quotation (Token.forall₂_sameKind_iff.2 (quotation.inj h))
      | _ => cases h
  | reference name =>
    constructor
    · rintro ⟨⟩
      rfl
    · intro h
      cases w with
      | reference name' =>
        obtain rfl := reference.inj h
        exact .reference name'
      | _ => cases h

theorem Definition.corresponds_iff {definition definition' : Definition} :
    definition.Corresponds Token.SameKind definition' ↔
      definition'.unplaced = definition.unplaced := by
  cases definition with
  | primitive operation =>
    constructor
    · rintro ⟨⟩
      rfl
    · intro h
      cases definition' with
      | primitive operation' =>
        obtain rfl := primitive.inj h
        exact .primitive operation'
      | user body => cases h
  | user body =>
    constructor
    · intro h
      cases h with
      | user hb => rw [unplaced, unplaced, Token.forall₂_sameKind_iff.1 hb]
    · intro h
      cases definition' with
      | primitive operation => cases h
      | user body' => exact .user (Token.forall₂_sameKind_iff.2 (user.inj h))

theorem Stack.corresponds_iff {s s' : Stack} :
    s.Corresponds Token.SameKind s' ↔ s'.unplaced = s.unplaced := by
  have hvalues : List.Forall₂ (Value.Corresponds Token.SameKind) s.values s'.values ↔
      s'.values.map Value.unplaced = s.values.map Value.unplaced :=
    forall₂_iff_map_eq fun _ _ _ => Value.corresponds_iff
  constructor
  · intro h
    exact Stack.ext (hvalues.1 h.values) h.mark
  · intro h
    have hv : s'.unplaced.values = s.unplaced.values := by rw [h]
    have hm : s'.unplaced.mark = s.unplaced.mark := by rw [h]
    exact ⟨hvalues.2 hv, hm⟩

namespace Simulation

/-- Nothing differs but the places of tokens. -/
def layouts (settings : Settings) : Simulation where
  token := Token.SameKind
  dictionary := Dictionary.SameUnplaced
  first := settings
  second := settings
  excused _ := False
  kind_eq h := h
  lookup {d d'} h name := by
    have hl := h.lookup name
    cases hd : d.lookup? name with
    | none =>
      rw [hd] at hl
      rw [Option.map_eq_none_iff.1 hl]
      exact .none
    | some definition =>
      rw [hd] at hl
      obtain ⟨definition', hd', hu⟩ := Option.map_eq_some_iff.1 hl
      rw [hd']
      exact .some (Definition.corresponds_iff.2 hu)
  define h hb name := by
    apply h.define
    rw [Definition.unplaced, Definition.unplaced, Token.forall₂_sameKind_iff.1 hb]
  addAlias h he := h.addAlias he

section Related
variable {settings : Settings} {s s' : Session}

theorem forall₂_stacks_iff {ss ss' : List Stack} :
    List.Forall₂ (Stack.Corresponds Token.SameKind) ss ss' ↔
      ss'.map Stack.unplaced = ss.map Stack.unplaced :=
  forall₂_iff_map_eq fun _ _ _ => Stack.corresponds_iff

theorem related_layouts (h : s.SameUnplaced s') : (layouts s.settings).Related s s' where
  first := rfl
  second := h.settings
  dictionary := h.dictionary
  stack := Stack.corresponds_iff.2 h.stack
  enclosing := forall₂_stacks_iff.2 h.enclosing
  input := h.input
  output := h.output

theorem Related.sameUnplaced (h : (layouts settings).Related s s') (hd : s'.depth = s.depth) :
    s.SameUnplaced s' where
  settings := h.second.trans h.first.symm
  dictionary := h.dictionary
  stack := Stack.corresponds_iff.1 h.stack
  enclosing := forall₂_stacks_iff.1 h.enclosing
  depth := hd
  input := h.input
  output := h.output

end Related

/-- Errors that name a word do not tell where a token stands. -/
theorem Errors.eq_of_located {settings : Settings} {error error' : EvalError} {d : Dictionary}
    (h : (layouts settings).Errors error error') (hl : Located error d) : error' = error := by
  obtain ⟨kind, word, trace⟩ := error
  obtain ⟨kind', word', trace'⟩ := error'
  obtain ⟨hk, hw, ht⟩ := h
  simp only at hk hw ht
  subst hw ht
  cases hk with
  | same kind => rfl
  | limit => rfl
  | unexpectedCloser =>
    obtain ⟨word, line, -, -, hf⟩ := hl.input _ rfl
    cases hf
  | unclosed =>
    obtain ⟨word, line, -, -, hf⟩ := hl.input _ rfl
    cases hf

end Simulation

theorem SameResult.finalState {α : Type} {Q : α → α → Prop}
    {r r' : EStateM.Result EvalError Session α} (h : SameResult Q r r') :
    (finalState r).SameUnplaced (finalState r') := by
  cases h with
  | ok _ h => exact h
  | error h => exact h

section Evaluate
variable {s s' : Session} {tokens tokens' : List Token}

/-- Evaluations of programs of the same kinds of tokens. The first session and the first program are
enough to rule out errors that tell a place. -/
theorem evaluate_sameUnplaced (h : s.SameUnplaced s') (hs : s.WellFormed)
    (ht : Token.IsProgram tokens) (hk : tokens'.map (·.kind) = tokens.map (·.kind)) :
    SameResult Eq (evaluate tokens s) (evaluate tokens' s') := by
  have hrelated := Simulation.related_layouts h
  have hroom : s.room = s'.room := by
    rw [Session.room, Session.room, h.settings, h.depth]
  have hm := hrelated.evaluate (Nat.le_of_eq hroom) (fun hlt => absurd hroom (Nat.ne_of_lt hlt))
    (Token.forall₂_sameKind_iff_kinds.2 hk)
  have hsafe := Safe.evaluate ht s hs
  have hdepth : (finalState (evaluate tokens' s')).depth =
      (finalState (evaluate tokens s)).depth := by
    rw [depth_evaluate, depth_evaluate, h.depth]
  generalize evaluate tokens s = r at hm hsafe hdepth
  generalize evaluate tokens' s' = r' at hm hdepth
  cases hm with
  | ok ha ht => exact .ok ha (ht.sameUnplaced hdepth)
  | error he ht =>
    cases hsafe with
    | error hl =>
      rw [he.eq_of_located hl.1]
      exact .error (ht.sameUnplaced hdepth)
  | excused hx => exact hx.elim

end Evaluate

/-- In two reachable sessions that differ only in the places of tokens that they store, two sources
of the same kinds of tokens do the same, wherever white space and comments put the tokens. Both
succeed, or both fail with one and the same error. Output and input are the same afterwards, and the
sessions again differ in places only. -/
theorem load_layout {s s' : Session} (hs : s.Reachable) (h : s.SameUnplaced s')
    {source source' : String} {tokens tokens' : List Token} (ht : tokenize source = .ok tokens)
    (ht' : tokenize source' = .ok tokens') (hk : tokens'.map (·.kind) = tokens.map (·.kind)) :
    SameResult Eq (load source s) (load source' s') ∧
      SameResult (fun values values' => values'.map Value.unplaced = values.map Value.unplaced)
        (evaluateLine source s) (evaluateLine source' s') := by
  have hload : SameResult Eq (load source s) (load source' s') := by
    rw [load_of_tokens ht, load_of_tokens ht']
    have hstart : { s with depth := 0 }.SameUnplaced { s' with depth := 0 } :=
      { h with depth := rfl }
    exact evaluate_sameUnplaced hstart { hs.wellFormed with } (Token.isProgram_of_tokenize ht) hk
  refine ⟨hload, ?_⟩
  cases hr : load source s with
  | ok a t =>
    rw [hr] at hload
    generalize hr' : load source' s' = r' at hload
    cases hload with
    | @ok _ _ _ t' _ hsame =>
      rw [evaluateLine_of_ok hr, evaluateLine_of_ok hr']
      have hvalues : t'.stack.values.map Value.unplaced = t.stack.values.map Value.unplaced :=
        congrArg Stack.values hsame.stack
      refine .ok ?_ hsame
      rw [Stack.fromBottom, Stack.fromBottom, List.map_reverse, List.map_reverse, hvalues]
  | error e t =>
    rw [hr] at hload
    generalize hr' : load source' s' = r' at hload
    cases hload with
    | error hsame =>
      rw [evaluateLine_of_error hr, evaluateLine_of_error hr']
      exact .error hsame

/-- A quotation from the first line and the same one from below a comment are applied alike, and
fail alike. -/
theorem load_layout_apply :
    SameResult Eq (load "apply" (Session.bare.perform (.load "{ dup }")).2)
      (load " apply # fails" (Session.bare.perform (.load "# again\n{ dup }")).2) := by
  have hfirst : tokenize "{ dup }" = .ok
      [⟨.opener .brace, ⟨1, 1⟩⟩, ⟨.word "dup", ⟨1, 3⟩⟩, ⟨.closer .brace, ⟨1, 7⟩⟩] := by
    decide +kernel
  have hsecond : tokenize "# again\n{ dup }" = .ok
      [⟨.opener .brace, ⟨2, 1⟩⟩, ⟨.word "dup", ⟨2, 3⟩⟩, ⟨.closer .brace, ⟨2, 7⟩⟩] := by
    decide +kernel
  have hsame := (load_layout .bare (.refl .bare) hfirst hsecond rfl).1.finalState
  rw [← Session.state_perform_load, ← Session.state_perform_load] at hsame
  have happly : tokenize "apply" = .ok [⟨.word "apply", ⟨1, 1⟩⟩] := by decide +kernel
  have happly' : tokenize " apply # fails" = .ok [⟨.word "apply", ⟨1, 2⟩⟩] := by decide +kernel
  exact (load_layout (.perform _ .bare) hsame happly happly' rfl).1

end StackCalc
