import StackCalc.Proofs.Moments.Steps

/-!
A standard that an evaluation keeps to from moment to moment. What tokens leave on the stack while
they run they must have met already as a quotation; then whatever is stored at a moment meets the
standard if what was stored at the outset does.
-/
namespace StackCalc

open Eval Moment

/-- The standard applies to tokens, and to what they store one after the other when they run. -/
structure Standard.Reads (S : Standard) : Prop where
  plain {token : Token} {rest : List Token} : S.value (.quotation (token :: rest)) →
    token.kind.isBracket = false → S.value (.quotation rest)
  quoted {name : String} {position : Text.Position} {rest : List Token} :
    S.value (.quotation (⟨.quoted name, position⟩ :: rest)) → S.value (.reference name)
  split {bracket : Bracket} {position : Text.Position} {rest body after : List Token} :
    S.value (.quotation (⟨.opener bracket, position⟩ :: rest)) →
      Token.splitAtCloser 0 rest = some (body, after) →
        S.value (.quotation body) ∧ S.value (.quotation after)

theorem Standard.reads_ofBodies {P : List Token → Prop}
    (hplain : ∀ {token : Token} {rest : List Token}, P (token :: rest) →
      token.kind.isBracket = false → P rest)
    (hsplit : ∀ {bracket : Bracket} {position : Text.Position} {rest body after : List Token},
      P (⟨.opener bracket, position⟩ :: rest) → Token.splitAtCloser 0 rest = some (body, after) →
        P body ∧ P after) :
    (ofBodies P).Reads where
  plain h hk := value_ofBodies_quotation.2 (hplain (value_ofBodies_quotation.1 h) hk)
  quoted _ := nofun
  split h hs := by
    obtain ⟨hbody, hafter⟩ := hsplit (value_ofBodies_quotation.1 h) hs
    exact ⟨value_ofBodies_quotation.2 hbody, value_ofBodies_quotation.2 hafter⟩

theorem Harvest.meets_offer {S : Standard} {s : Session} (hs : s.Meets S) {item : Value}
    (hi : S.value item) {harvest : Harvest} (hy : S.value harvest.yield) :
    (harvest.offer item s).Meets S := by
  cases harvest with
  | mapped results => exact hs.pushed hi
  | kept items => exact hs.pushed hi
  | reduced accumulator => exact (hs.pushed hy).pushed hi

theorem Harvest.value_bringIn {S : Standard} {item result : Value} (hi : S.value item)
    (hr : S.value result) {harvest : Harvest} (hy : S.value harvest.yield) :
    S.value (harvest.bringIn item result).yield := by
  have happend {values : List Value} (h : S.value (.sequence values)) {value : Value}
      (hv : S.value value) : S.value (.sequence (values ++ [value])) :=
    S.sequence.2 (List.forall_mem_append.2 ⟨S.sequence.1 h, List.forall_mem_singleton.2 hv⟩)
  cases harvest with
  | mapped results => exact happend hy hr
  | kept items =>
    rw [bringIn]
    split
    · exact happend hy hi
    · exact hy
  | reduced accumulator => exact hr

/-- What the frame keeps to go on with meets the standard. -/
def Frame.Meets (S : Standard) : Frame → Prop
  | rest tokens => S.value (.quotation tokens)
  | again name body count => (Sequel.again name body count).Of S name
  | watch _ item loop => S.value item ∧ (Sequel.gather loop).Of S loop.frame
  | _ => True

def Task.Meets (S : Standard) : Task → Prop
  | run tokens => S.value (.quotation tokens)
  | proceed sequel => ∃ name, sequel.Of S name
  | _ => True

/-- All that the moment stores and all that it has left to do meets the standard. -/
structure Moment.Meets (S : Standard) (m : Moment) : Prop where
  session : m.session.Meets S
  task : m.task.Meets S
  frames : ∀ frame ∈ m.frames, frame.Meets S

theorem Moment.Meets.advance {S : Standard} (hS : S.Reads) {m n : Moment} (h : Advance m n)
    (hm : m.Meets S) : n.Meets S := by
  obtain ⟨hs, ht, hf⟩ := hm
  -- a frame more, or a frame less
  have hcons {frame : Frame} {frames : List Frame} (hframe : frame.Meets S)
      (hframes : ∀ frame ∈ frames, frame.Meets S) :
      ∀ f ∈ frame :: frames, f.Meets S := List.forall_mem_cons.2 ⟨hframe, hframes⟩
  have hhead {frame : Frame} {frames : List Frame}
      (hframes : ∀ f ∈ frame :: frames, f.Meets S) := (List.forall_mem_cons.1 hframes).1
  have htail {frame : Frame} {frames : List Frame}
      (hframes : ∀ f ∈ frame :: frames, f.Meets S) := (List.forall_mem_cons.1 hframes).2
  cases h with
  | number => exact ⟨hs.pushed (S.number _), hS.plain ht rfl, hf⟩
  | quoted => exact ⟨hs.pushed (hS.quoted ht), hS.plain ht rfl, hf⟩
  | word => exact ⟨hs, trivial, hcons (hS.plain ht rfl) hf⟩
  | quotation hsplit =>
    obtain ⟨hbody, hafter⟩ := hS.split ht hsplit
    exact ⟨hs.pushed hbody, hafter, hf⟩
  | scope hsplit =>
    obtain ⟨hbody, hafter⟩ := hS.split ht hsplit
    exact ⟨hs.scopeEntered, hbody, hcons trivial (hcons hafter hf)⟩
  | user hl => exact ⟨hs, ⟨_, rfl, S.body hs.dictionary hl⟩, hf⟩
  | @primitive name operation sequel frames s t hl hq =>
    obtain ⟨hsequel, ht, -⟩ := (Plain.start operation).of_ok hs hq
    exact ⟨ht, ⟨_, hsequel⟩, hcons trivial hf⟩
  | @failed name operation error frames s t hl hq =>
    obtain ⟨-, ht, -⟩ := (Plain.start operation).of_error hs hq
    exact ⟨ht, trivial, hcons trivial hf⟩
  | entered =>
    obtain ⟨_, -, hbody⟩ := ht
    exact ⟨{ hs with }, hbody, hcons trivial hf⟩
  | again =>
    obtain ⟨_, rfl, hbody⟩ := ht
    exact ⟨hs, ⟨_, rfl, hbody⟩, hcons ⟨rfl, hbody⟩ hf⟩
  | gathered =>
    obtain ⟨_, -, -, hyield, -⟩ := ht
    exact ⟨hs.pushed hyield, ⟨"", trivial⟩, hf⟩
  | offered =>
    obtain ⟨_, -, hbody, hyield, hitems⟩ := ht
    obtain ⟨hitem, hitems⟩ := List.forall_mem_cons.1 hitems
    have hoffer := Harvest.meets_offer hs hitem hyield
    exact ⟨{ hoffer with }, ⟨_, rfl, hbody⟩, hcons ⟨hitem, rfl, hbody, hyield, hitems⟩ hf⟩
  | applied => exact ⟨hs, trivial, hcons trivial hf⟩
  | onward => exact ⟨hs, hhead hf, htail hf⟩
  | @built frames s =>
    have hitems : S.value (.sequence s.stack.fromBottom) :=
      S.sequence.2 fun item hi => hs.stack item (List.mem_reverse.1 hi)
    exact ⟨hs.scopeLeft.pushed hitems, ⟨"", trivial⟩, htail hf⟩
  | returned => exact ⟨{ hs with }, ⟨"", trivial⟩, htail hf⟩
  | invoked | executed => exact ⟨hs, ⟨"", trivial⟩, htail hf⟩
  | repeats => exact ⟨hs, ⟨_, hhead hf⟩, htail hf⟩
  | @accepted outer item result loop frames s t ha =>
    obtain ⟨hitem, -, hbody, hyield, hitems⟩ := hhead hf
    have hleft : (watchLeft outer s).Meets S := { hs with }
    obtain ⟨hresult, ht, -⟩ := (Plain.accept _ _).of_ok hleft ha
    have hyield := Harvest.value_bringIn hitem hresult hyield
    exact ⟨ht, ⟨_, rfl, hbody, hyield, hitems⟩, htail hf⟩
  | @rejected outer item loop error frames s t ha =>
    have hleft : (watchLeft outer s).Meets S := { hs with }
    obtain ⟨-, ht, -⟩ := (Plain.accept _ _).of_error hleft ha
    exact ⟨ht, trivial, htail hf⟩
  | ran | repeated => exact ⟨hs, ⟨"", trivial⟩, hf⟩
  | @unwound error frame frames s =>
    refine ⟨?_, trivial, htail hf⟩
    cases frame with
    | scope => exact hs.scopeLeft
    | _ => exact { hs with }
  | closer | unclosed | unknown | refused => exact ⟨hs, trivial, hf⟩

/-- What is stored during an evaluation of tokens that meet the standard meets it too. -/
theorem Moment.Meets.of_leads {S : Standard} (hS : S.Reads) {s : Session} {tokens : List Token}
    {m : Moment} (hs : s.Meets S) (ht : S.value (.quotation tokens))
    (h : (outset tokens s).Leads m) : m.Meets S :=
  h.preserves ⟨{ hs with }, ht, List.forall_mem_nil _⟩ fun _ => Meets.advance hS

end StackCalc
