import StackCalc.Proofs.Moments.Evaluation
import StackCalc.Proofs.Moments.Standards

/-!
How deep the evaluator enters itself: for calls, for the bodies of array scopes, and for the words
that applied references name. The limit on nesting bounds the calls, and with the nesting of
brackets the scopes too. Applied words are bounded by nothing but the height of the stack.
-/
namespace StackCalc

open Eval Moment

namespace Token

/-- The largest number of brackets that are open at once in the tokens, when `opened` are open
before them. -/
def deepest (opened : Nat) : List Token → Nat
  | [] => opened
  | token :: rest =>
    match token.kind with
    | .opener _ => deepest (opened + 1) rest
    | .closer _ => max opened (deepest (opened - 1) rest)
    | _ => deepest opened rest

/-- How deep brackets nest in the tokens. -/
def nesting (tokens : List Token) : Nat :=
  deepest 0 tokens

/-- What is split off at a closing bracket lies within the bracket that it closes. -/
theorem deepest_splitAtCloser {depth : Nat} {tokens body after : List Token}
    (h : splitAtCloser depth tokens = some (body, after)) :
    deepest depth body + 1 ≤ deepest (depth + 1) tokens ∧
      nesting after ≤ deepest (depth + 1) tokens := by
  induction tokens generalizing depth body after with
  | nil => cases h
  | cons token rest ih =>
    obtain ⟨kind, position⟩ := token
    cases kind with
    | opener bracket =>
      obtain ⟨⟨inner, outer⟩, hs, he⟩ := Option.map_eq_some_iff.1 h
      cases he
      exact ih hs
    | closer bracket =>
      cases depth with
      | zero =>
        cases h
        simp only [deepest, nesting, Nat.zero_add, Nat.sub_self]
        omega
      | succ depth =>
        obtain ⟨⟨inner, outer⟩, hs, he⟩ := Option.map_eq_some_iff.1 h
        cases he
        have := ih hs
        simp only [deepest, Nat.add_sub_cancel]
        omega
    | _ =>
      obtain ⟨⟨inner, outer⟩, hs, he⟩ := Option.map_eq_some_iff.1 h
      cases he
      have hinner := ih hs
      simpa only [deepest] using hinner

theorem nesting_plain {token : Token} {rest : List Token} (hk : token.kind.isBracket = false) :
    nesting (token :: rest) = nesting rest := by
  rw [nesting, deepest]
  cases hkind : token.kind with
  | opener bracket =>
    rw [hkind] at hk
    cases hk
  | closer bracket =>
    rw [hkind] at hk
    cases hk
  | _ => rfl

/-- A pair of brackets adds one to the nesting of what it encloses. -/
theorem nesting_opener {bracket : Bracket} {p : Text.Position} {rest body after : List Token}
    (h : splitAtCloser 0 rest = some (body, after)) :
    nesting body + 1 ≤ nesting (⟨.opener bracket, p⟩ :: rest) ∧
      nesting after ≤ nesting (⟨.opener bracket, p⟩ :: rest) :=
  deepest_splitAtCloser h

end Token

open Token (nesting nesting_opener)

namespace Standard

/-- Quotations and definitions nest brackets at most `limit` deep. -/
def nesting (limit : Nat) : Standard :=
  .ofBodies fun body => Token.nesting body ≤ limit

theorem reads_nesting (limit : Nat) : (nesting limit).Reads := by
  apply reads_ofBodies
  · intro token rest h hk
    rwa [← Token.nesting_plain hk]
  · intro bracket position rest body after h hsplit
    obtain ⟨hbody, hafter⟩ := nesting_opener hsplit
    exact ⟨Nat.le_of_succ_le (hbody.trans h), hafter.trans h⟩

end Standard

/-! Frames between one open call and the next. -/

/-- The number of frames such as `p` says that lie above the innermost open call. -/
def countInside (p : Frame → Bool) : List Frame → Nat
  | [] => 0
  | .call _ :: _ => 0
  | frame :: below => (if p frame then 1 else 0) + countInside p below

def Frame.isScope : Frame → Bool
  | scope => true
  | _ => false

def Frame.isApplied : Frame → Bool
  | applied => true
  | _ => false

/-- The evaluator has entered itself for what is inside the frame. -/
def Frame.isActivation (frame : Frame) : Bool :=
  frame.call?.isSome || frame.isScope || frame.isApplied

theorem countP_le_of_inside {p : Frame → Bool} (hp : ∀ name, p (.call name) = false) {bound : Nat}
    {frames : List Frame}
    (h : ∀ above below, frames = above ++ below → countInside p below ≤ bound) :
    frames.countP p ≤ bound * (openCalls frames).length + countInside p frames := by
  induction frames with
  | nil => exact Nat.zero_le _
  | cons frame below ih =>
    have hbelow := ih fun above rest hsplit => h (frame :: above) rest (by rw [hsplit]; rfl)
    have hinside := h [frame] below rfl
    rw [List.countP_cons]
    cases frame with
    | call name =>
      -- what lies inside this call is counted with it, and the count starts anew
      have hcalls : (openCalls (.call name :: below)).length = (openCalls below).length + 1 := rfl
      simp only [hp, hcalls, countInside, Nat.mul_add]
      simp only [Bool.false_eq_true, if_false]
      omega
    | _ =>
      simp only [countInside]
      show _ ≤ bound * (openCalls below).length + _
      omega

theorem countInside_le_of_stacked {p : Frame → Bool} {R : Frame → List Frame → Prop} {bound : Nat}
    (hR : ∀ frame below, R frame below → p frame = true → countInside p below + 1 ≤ bound)
    {frames : List Frame} (h : Stacked R frames) : countInside p frames ≤ bound := by
  induction frames with
  | nil => exact Nat.zero_le _
  | cons frame below ih =>
    have hbelow := ih h.2
    by_cases hf : p frame = true
    · have hone := hR frame below h.1 hf
      cases frame with
      | call name => exact Nat.zero_le _
      | _ =>
        simp only [countInside, hf, if_true]
        omega
    · cases frame with
      | call name => exact Nat.zero_le _
      | _ =>
        simp only [countInside, hf]
        simpa using hbelow

/-! Scopes are bounded by the nesting of brackets. -/

/-- The scopes around the tokens that the frame keeps, and the scope that it may be, leave room for
the brackets within the limit. -/
def Frame.Nests (limit : Nat) (frame : Frame) (below : List Frame) : Prop :=
  match frame with
  | rest tokens => countInside isScope below + nesting tokens ≤ limit
  | scope => countInside isScope below + 1 ≤ limit
  | _ => True

def Task.Nests (limit : Nat) (frames : List Frame) : Task → Prop
  | run tokens => countInside Frame.isScope frames + nesting tokens ≤ limit
  | _ => True

/-- Brackets nest within the limit in all that the moment has left to do and in all that it stores,
the scopes counted that are open inside the innermost call. -/
structure Moment.Nested (limit : Nat) (m : Moment) : Prop where
  stored : m.Meets (.nesting limit)
  task : m.task.Nests limit m.frames
  frames : Stacked (Frame.Nests limit) m.frames

theorem Moment.Nested.advance {limit : Nat} {m n : Moment} (h : Advance m n)
    (hm : m.Nested limit) : n.Nested limit := by
  have hstored : n.Meets (.nesting limit) := .advance (Standard.reads_nesting limit) h hm.stored
  -- what is left is the count of the scopes
  suffices hcount : n.task.Nests limit n.frames ∧ Stacked (Frame.Nests limit) n.frames from
    ⟨hstored, hcount.1, hcount.2⟩
  obtain ⟨hmeets, ht, hf⟩ := hm
  cases h with
  | number | quoted => exact ⟨ht, hf⟩
  | word => exact ⟨trivial, ht, hf⟩
  | quotation hsplit =>
    exact ⟨Nat.le_trans (Nat.add_le_add_left (nesting_opener hsplit).2 _) ht, hf⟩
  | scope hsplit =>
    -- one scope more is open inside the brackets, and one pair of brackets less is left
    obtain ⟨hbody, hafter⟩ := nesting_opener hsplit
    simp only [Task.Nests] at ht
    refine ⟨?_, ?_, Nat.le_trans (Nat.add_le_add_left hafter _) ht, hf⟩
    · simp only [Task.Nests, countInside, Frame.isScope, if_true]
      simp only [Bool.false_eq_true, if_false]
      omega
    · simp only [Frame.Nests, countInside, Frame.isScope]
      simp only [Bool.false_eq_true, if_false]
      omega
  | entered =>
    -- the scopes around the call do not count inside it
    obtain ⟨_, -, hbody⟩ := hmeets.task
    refine ⟨?_, trivial, hf⟩
    simp only [Task.Nests, countInside, Nat.zero_add]
    exact Standard.value_ofBodies_quotation.1 hbody
  | onward => exact ⟨hf.1, hf.2⟩
  | primitive | failed | again | offered | applied => exact ⟨trivial, trivial, hf⟩
  | built | repeats | accepted | rejected | returned | invoked | executed | unwound =>
    exact ⟨trivial, hf.2⟩
  | user | gathered | ran | repeated | closer | unclosed | unknown | refused => exact ⟨trivial, hf⟩

/-! Applied words are bounded by the height of the stack: each reference that is applied has lain
there, and nothing is pushed between one and the next. -/

/-- No tokens run between a word that has been applied and the next one. -/
def Frame.Chains (height : Nat) (frame : Frame) (below : List Frame) : Prop :=
  match frame with
  | rest _ => countInside isApplied below = 0
  | applied => countInside isApplied below + 1 ≤ height
  | _ => True

def Task.Chains (height : Nat) (frames : List Frame) (s : Session) : Task → Prop
  | run _ => countInside Frame.isApplied frames = 0
  | execute _ => countInside Frame.isApplied frames + s.stack.height ≤ height
  | proceed (.word _) => countInside Frame.isApplied frames + s.stack.height + 1 ≤ height
  | _ => True

/-- The words that have been applied inside the innermost call and the references that are left to
apply are no more than `height`. -/
structure Moment.Chained (height : Nat) (m : Moment) : Prop where
  task : m.task.Chains height m.frames m.session
  frames : Stacked (Frame.Chains height) m.frames

theorem Moment.Chained.advance {height : Nat} {m n : Moment} (h : Advance m n)
    (hheight : m.session.stack.height ≤ height) (hm : m.Chained height) : n.Chained height := by
  obtain ⟨ht, hf⟩ := hm
  cases h with
  | number | quoted | quotation => exact ⟨ht, hf⟩
  | @word name position rest frames s =>
    have hnone : countInside Frame.isApplied (.rest rest :: frames) = 0 :=
      (Nat.zero_add _).trans ht
    refine ⟨?_, ht, hf⟩
    simp only [Task.Chains, hnone, Nat.zero_add]
    exact hheight
  | scope =>
    refine ⟨?_, trivial, ht, hf⟩
    simp only [Task.Chains, countInside, Frame.isApplied] at ht ⊢
    simp [ht]
  | @primitive name operation sequel frames s t hl hq =>
    refine ⟨?_, trivial, hf⟩
    cases sequel with
    | word next =>
      -- the reference that is applied has been taken off
      have hlt := height_lt_of_start hq
      simp only [Task.Chains, countInside, Frame.isApplied] at ht ⊢
      simp only [Bool.false_eq_true, if_false]
      omega
    | _ => exact trivial
  | entered => exact ⟨rfl, trivial, hf⟩
  | applied =>
    simp only [Task.Chains] at ht
    refine ⟨?_, ?_, hf⟩
    · simp only [Task.Chains, countInside, Frame.isApplied, if_true]
      omega
    · simp only [Frame.Chains]
      omega
  | onward => exact ⟨hf.1, hf.2⟩
  | failed | again | offered => exact ⟨trivial, trivial, hf⟩
  | returned | built | invoked | executed | repeats | accepted | rejected | unwound =>
    exact ⟨trivial, hf.2⟩
  | user | ran | repeated | gathered | closer | unclosed | unknown | refused =>
    exact ⟨trivial, hf⟩

/-! The bounds. -/

theorem Stacked.suffix {R : Frame → List Frame → Prop} {above below : List Frame}
    (h : Stacked R (above ++ below)) : Stacked R below := by
  induction above with
  | nil => exact h
  | cons frame rest ih => exact ih h.2

/-- As many frames between calls as there may be at most, once for each call and once more. -/
theorem countP_le_of_stacked {p : Frame → Bool} {R : Frame → List Frame → Prop} {bound limit : Nat}
    (hp : ∀ name, p (.call name) = false)
    (hR : ∀ frame below, R frame below → p frame = true → countInside p below + 1 ≤ bound)
    {frames : List Frame} (h : Stacked R frames) (hcalls : (openCalls frames).length ≤ limit) :
    frames.countP p ≤ bound * (limit + 1) := by
  have hinside : ∀ above below, frames = above ++ below → countInside p below ≤ bound := by
    intro above below hsplit
    rw [hsplit] at h
    exact countInside_le_of_stacked hR h.suffix
  calc frames.countP p
      ≤ bound * (openCalls frames).length + countInside p frames := countP_le_of_inside hp hinside
    _ ≤ bound * limit + bound :=
      Nat.add_le_add (Nat.mul_le_mul_left _ hcalls) (hinside [] frames rfl)
    _ = bound * (limit + 1) := (Nat.mul_succ _ _).symm

theorem countP_isActivation (frames : List Frame) : frames.countP Frame.isActivation =
    (openCalls frames).length + frames.countP Frame.isScope + frames.countP Frame.isApplied := by
  induction frames with
  | nil => rfl
  | cons frame below ih =>
    have hcalls : (openCalls (frame :: below)).length =
        (if frame.call?.isSome then 1 else 0) + (openCalls below).length := by
      cases frame with
      | call name => exact Nat.add_comm _ 1
      | _ => exact (Nat.zero_add _).symm
    simp only [List.countP_cons, ih, hcalls]
    cases frame <;> simp [Frame.isActivation, Frame.call?, Frame.isScope, Frame.isApplied] <;> omega

/-- The limit bounds the calls that are open at a moment, and with the nesting of brackets the
scopes. The words that applied references name are bounded by the height of the stack alone, which a
program makes as large as it likes. -/
theorem activations_bounded {s : Session} {tokens : List Token} {limit : Nat}
    (ht : nesting tokens ≤ limit) (hs : s.Meets (.nesting limit)) {m : Moment}
    (h : (outset tokens s).Leads m) :
    (openCalls m.frames).length ≤ s.settings.maxDepth ∧
      m.frames.countP Frame.isScope ≤ limit * (s.settings.maxDepth + 1) ∧
      ∀ height, (∀ n, (outset tokens s).Leads n → n.session.stack.height ≤ height) →
        m.frames.countP Frame.isApplied ≤ height * (s.settings.maxDepth + 1) ∧
        m.frames.countP Frame.isActivation ≤
          s.settings.maxDepth + (limit + height) * (s.settings.maxDepth + 1) := by
  have hcalls : (openCalls m.frames).length ≤ s.settings.maxDepth := by
    rw [← h.level.depth]
    exact h.level.limit
  have hnested : m.Nested limit := by
    have hbrackets : (Standard.nesting limit).value (.quotation tokens) :=
      Standard.value_ofBodies_quotation.2 ht
    have hstored : (outset tokens s).Meets (.nesting limit) :=
      .of_leads (Standard.reads_nesting limit) hs hbrackets .refl
    refine h.preserves ⟨hstored, ?_, trivial⟩ fun _ => Nested.advance
    exact (Nat.zero_add _).trans_le ht
  have hscopes : m.frames.countP Frame.isScope ≤ limit * (s.settings.maxDepth + 1) := by
    refine countP_le_of_stacked (fun _ => rfl) ?_ hnested.frames hcalls
    intro frame below hR hp
    cases frame with
    | scope => exact hR
    | _ => cases hp
  refine ⟨hcalls, hscopes, fun height hheight => ?_⟩
  have hchained : m.Chained height :=
    h.preserves ⟨rfl, trivial⟩ fun hn hadvance => Chained.advance hadvance (hheight _ hn)
  have happlied : m.frames.countP Frame.isApplied ≤ height * (s.settings.maxDepth + 1) := by
    refine countP_le_of_stacked (fun _ => rfl) ?_ hchained.frames hcalls
    intro frame below hR hp
    cases frame with
    | applied => exact hR
    | _ => cases hp
  refine ⟨happlied, ?_⟩
  rw [countP_isActivation, Nat.add_mul]
  omega

theorem Session.bare_meets_nesting (limit : Nat) : Session.bare.Meets (.nesting limit) where
  stack := List.forall_mem_nil _
  enclosing := List.forall_mem_nil _
  dictionary name body hl := by
    obtain ⟨operation, -, hd⟩ := Dictionary.exists_primitive_of_lookup? hl
    cases hd

/-- A word that is applied by a quotation that is applied between brackets: a scope, a call and an
applied word are open when it is executed, and at no moment do more than two values lie on a
stack. -/
theorem activations_of_nested_application : ∃ tokens m,
    tokenize "[ { ,x ,dup apply } apply ]" = .ok tokens ∧ nesting tokens ≤ 2 ∧
      Session.bare.Meets (.nesting 2) ∧ (outset tokens .bare).Leads m ∧
      m.task = .execute "dup" ∧ (openCalls m.frames).length = 1 ∧
      m.frames.countP Frame.isScope = 1 ∧ m.frames.countP Frame.isApplied = 1 ∧
      (∀ n, (outset tokens .bare).Leads n → n.session.stack.height ≤ 2) ∧
      (openCalls m.frames).length ≤ Session.bare.settings.maxDepth ∧
      m.frames.countP Frame.isScope ≤ 2 * (Session.bare.settings.maxDepth + 1) ∧
      m.frames.countP Frame.isApplied ≤ 2 * (Session.bare.settings.maxDepth + 1) ∧
      m.frames.countP Frame.isActivation ≤ Session.bare.settings.maxDepth +
        (2 + 2) * (Session.bare.settings.maxDepth + 1) := by
  let tokens : List Token := [⟨.opener .square, ⟨1, 1⟩⟩, ⟨.opener .brace, ⟨1, 3⟩⟩,
    ⟨.quoted "x", ⟨1, 5⟩⟩, ⟨.quoted "dup", ⟨1, 8⟩⟩, ⟨.word "apply", ⟨1, 13⟩⟩,
    ⟨.closer .brace, ⟨1, 19⟩⟩, ⟨.word "apply", ⟨1, 21⟩⟩, ⟨.closer .square, ⟨1, 27⟩⟩]
  have htokens : tokenize "[ { ,x ,dup apply } apply ]" = .ok tokens := by decide +kernel
  have hnesting : nesting tokens ≤ 2 := by decide
  have hbare := Session.bare_meets_nesting 2
  have hleads := leads_later 10 (outset tokens .bare)
  -- the evaluation ends with the twenty-third step
  have hheight : ∀ n, (outset tokens .bare).Leads n → n.session.stack.height ≤ 2 :=
    forall_of_later 23 (by decide +kernel) (by decide +kernel)
  obtain ⟨hcalls, hscopes, hbounds⟩ := activations_bounded hnesting hbare hleads
  obtain ⟨happlied, hall⟩ := hbounds 2 hheight
  refine ⟨tokens, _, htokens, hnesting, hbare, hleads, ?_, ?_, ?_, ?_, hheight, hcalls, hscopes,
    happlied, hall⟩
  · rfl
  · decide +kernel
  · decide +kernel
  · decide +kernel

/-! Programs that apply as many references as they like. -/

section Chain
variable {s : Session} {below : List Value}

/-- Pushes a number, a reference to `dup` and `count` references to `apply`, and applies the last
one: it executes `apply` on the one before it, and so on down to `dup`. -/
def chain (count : Nat) : List Token :=
  ⟨.number 1, ⟨1, 1⟩⟩ :: ⟨.quoted "dup", ⟨1, 1⟩⟩ ::
    (List.replicate count ⟨.quoted "apply", ⟨1, 1⟩⟩ ++ [⟨.word "apply", ⟨1, 1⟩⟩])

theorem start_apply {name : String} (hv : s.stack.values = .reference name :: below) :
    ∃ t, start .apply s = .ok (.word name) t ∧ t.stack.values = below ∧
      t.dictionary = s.dictionary := by
  obtain ⟨u, hu, hvalues, -⟩ := Stack.pop_of_cons hv
  refine ⟨{ s with stack := u }, ?_, hvalues, rfl⟩
  exact bind_of_ok (onStack_eq_ok.2 ⟨u, hu, rfl⟩)

theorem references_pushed (name : String) (count : Nat) (rest : List Token) (s : Session) : ∃ t,
    t.stack.values = List.replicate count (.reference name) ++ s.stack.values ∧
    t.dictionary = s.dictionary ∧
    (∀ frames, Leads ⟨.run (List.replicate count ⟨.quoted name, ⟨1, 1⟩⟩ ++ rest), frames, s⟩
      ⟨.run rest, frames, t⟩) ∧
    ∀ call, run call (List.replicate count ⟨.quoted name, ⟨1, 1⟩⟩ ++ rest) s =
      run call rest t := by
  induction count generalizing s with
  | zero => exact ⟨s, rfl, rfl, fun _ => .refl, fun _ => rfl⟩
  | succ count ih =>
    obtain ⟨t, hv, hd, hleads, hrun⟩ := ih (s.pushed (.reference name))
    refine ⟨t, ?_, hd, fun frames => .cons rfl (hleads frames), fun call => ?_⟩
    · rw [hv, List.replicate_succ', List.append_assoc]
      rfl
    · rw [List.replicate_succ, List.cons_append, run_quoted]
      exact hrun call

/-- Every reference to `apply` that is applied opens one frame more. -/
theorem leads_applied (hd : s.dictionary.lookup? "apply" = some (.primitive .apply)) (count : Nat)
    (hv : s.stack.values = List.replicate count (.reference "apply") ++ below)
    (frames : List Frame) : ∃ above t, Leads ⟨.execute "apply", frames, s⟩
      ⟨.execute "apply", above ++ frames, t⟩ ∧ openCalls above = [] ∧
        above.countP Frame.isApplied = count := by
  induction count generalizing s frames with
  | zero => exact ⟨[], s, .refl, rfl, rfl⟩
  | succ count ih =>
    obtain ⟨t, hstart, hrest, hdict⟩ := start_apply hv
    obtain ⟨above, u, hu, hcalls, hcount⟩ := ih (hdict ▸ hd) hrest
      (.applied :: .primitive "apply" .apply :: frames)
    have hfirst : (⟨.execute "apply", frames, s⟩ : Moment).step =
        some ⟨.proceed (.word "apply"), .primitive "apply" .apply :: frames, t⟩ := by
      simp only [Moment.step, executeStep, hd, hstart]
      rfl
    refine ⟨above ++ [.applied, .primitive "apply" .apply], u, .cons hfirst (.cons rfl ?_), ?_, ?_⟩
    · rw [List.append_assoc]
      exact hu
    · rw [openCalls, List.filterMap_append]
      exact List.append_eq_nil_iff.2 ⟨hcalls, rfl⟩
    · rw [List.countP_append, hcount]
      rfl

theorem execute_applied {call : Caller} {value : Value}
    (ha : s.dictionary.lookup? "apply" = some (.primitive .apply))
    (hc : s.dictionary.lookup? "dup" = some (.primitive .copy)) (count : Nat)
    (hv : s.stack.values =
      List.replicate count (.reference "apply") ++ .reference "dup" :: value :: below) :
    ∃ t, execute call "apply" s = .ok () t := by
  induction count generalizing s with
  | zero =>
    obtain ⟨t, hstart, hrest, hdict⟩ := start_apply hv
    have hlast : 0 < t.stack.values.length := by
      rw [hrest]
      exact Nat.succ_pos _
    have hcopy : invoke call .copy t =
        .ok none { t with stack := t.stack.pushed t.stack.values[0] } :=
      only_eq_ok.2 ⟨onStack_eq_ok.2 ⟨_, Stack.copyFromTop_of_lt hlast, rfl⟩, rfl⟩
    rw [execute_of_word ha hstart, execute_primitive_ok (hdict ▸ hc) hcopy]
    exact ⟨_, rfl⟩
  | succ count ih =>
    obtain ⟨t, hstart, hrest, hdict⟩ := start_apply hv
    obtain ⟨u, hu⟩ := ih (hdict ▸ ha) (hdict ▸ hc) hrest
    rw [execute_of_word ha hstart, hu]
    exact ⟨_, rfl⟩

theorem nesting_chain (count : Nat) : nesting (chain count) = 0 := by
  show Token.deepest 0 (List.replicate count _ ++ _) = 0
  induction count with
  | zero => rfl
  | succ count ih => exact ih

/-- Any number of applied words can be open at once without a call, and the evaluation succeeds. -/
theorem exists_deep_application {s : Session} (hs : s.dictionary = .primitives) (count : Nat) :
    (∃ m, (outset (chain count) s).Leads m ∧ openCalls m.frames = [] ∧
      count ≤ m.frames.countP Frame.isActivation) ∧
    ∃ t, evaluate (chain count) { s with depth := 0 } = .ok () t := by
  have happly : s.dictionary.lookup? "apply" = some (.primitive .apply) := by
    rw [hs]
    decide +kernel
  have hcopy : s.dictionary.lookup? "dup" = some (.primitive .copy) := by
    rw [hs]
    decide +kernel
  obtain ⟨t, hv, hd, hleads, hrun⟩ := references_pushed "apply" count [⟨.word "apply", ⟨1, 1⟩⟩]
    ((Session.pushed { s with depth := 0 } (.number 1)).pushed (.reference "dup"))
  constructor
  · -- once the references lie on the stack, the last word unfolds them all
    obtain ⟨above, u, hu, hcalls, hcount⟩ := leads_applied (hd ▸ happly) count hv [.rest []]
    refine ⟨_, .cons rfl (.cons rfl ((hleads []).trans (.cons rfl hu))), ?_, ?_⟩
    · rw [openCalls, List.filterMap_append]
      exact List.append_eq_nil_iff.2 ⟨hcalls, rfl⟩
    · rw [countP_isActivation, List.countP_append, List.countP_append, hcount]
      omega
  · obtain ⟨u, hu⟩ := execute_applied (hd ▸ happly) (hd ▸ hcopy) count hv
    refine ⟨u, ?_⟩
    rw [evaluate, chain, run_number]
    apply (bind_of_ok rfl).trans
    rw [run_quoted]
    apply (bind_of_ok rfl).trans
    apply (hrun _).trans
    rw [run_word, bind_of_ok hu, run_nil]
    rfl

end Chain

/-- No bound on the activations follows from the limit and the nesting of brackets. -/
theorem activations_unbounded : ¬ ∃ bound : Nat → Nat → Nat,
    ∀ (s : Session) (tokens : List Token) (limit : Nat), nesting tokens ≤ limit →
      s.Meets (.nesting limit) → ∀ m, (outset tokens s).Leads m →
        m.frames.countP Frame.isActivation ≤ bound s.settings.maxDepth limit := by
  intro h
  obtain ⟨bound, hbound⟩ := h
  have hs := Session.bare_meets_nesting 0
  obtain ⟨⟨m, hm, -, hcount⟩, -⟩ := exists_deep_application (s := .bare) rfl
    (bound Session.bare.settings.maxDepth 0 + 1)
  have hle := hbound .bare _ 0 (Nat.le_of_eq (nesting_chain _)) hs m hm
  omega

end StackCalc
