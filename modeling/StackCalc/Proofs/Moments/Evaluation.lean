import StackCalc.Proofs.Moments.Steps
import StackCalc.Proofs.Reachable
import StackCalc.Proofs.Termination

/-!
The moments of an evaluation lead where the evaluator ends: to the same session, with nothing left
open, and to the same error if there is one.
-/
namespace StackCalc

namespace Eval

/-- The loop over `items`, from what has been made of the items before them. -/
def gather (call : Caller) (frame : String) (body : List Token) (base : Nat) :
    Harvest → List Value → Eval Unit
  | harvest, [] => push harvest.yield
  | harvest, item :: items => fun s =>
    (singleResult call frame body base >>= fun result =>
      gather call frame body base (harvest.bringIn item result) items) (harvest.offer item s)

/-- What is left of a primitive once it has its operands, and the word to execute next. -/
def pursue (call : Caller) : Sequel → Eval (Option String)
  | .finished => pure none
  | .call frame body => only (call frame body)
  | .again frame body count => only (times (call frame body) count)
  | .gather loop =>
    only (gather call loop.frame loop.body loop.base loop.harvest loop.items)
  | .word name => pure (some name)

section Loops
variable (call : Caller) (frame : String) (body : List Token) (base : Nat)

theorem gather_mapped (results items : List Value) :
    gather call frame body base (.mapped results) items =
      items.mapM (mapStep call frame body base) >>= fun further =>
        push (.sequence (results ++ further)) := by
  induction items generalizing results with
  | nil =>
    simp only [gather, Harvest.yield, List.mapM_nil, pure_bind, List.append_nil]
  | cons item items ih =>
    have hstep (s : Session) : gather call frame body base (.mapped results) (item :: items) s =
        (mapStep call frame body base item >>= fun result =>
          gather call frame body base (.mapped (results ++ [result])) items) s := rfl
    funext s
    rw [hstep]
    simp only [ih, List.mapM_cons, bind_assoc, pure_bind, List.append_assoc, List.singleton_append]

theorem bringIn_kept (kept : List Value) (item result : Value) :
    (Harvest.kept kept).bringIn item result =
      .kept (if result.isTrue then kept ++ [item] else kept) := by
  rw [Harvest.bringIn]
  split <;> rfl

theorem gather_kept (kept items : List Value) :
    gather call frame body base (.kept kept) items =
      items.mapM (filterStep call frame body base) >>= fun verdicts =>
        push (.sequence (kept ++ (verdicts.filter (·.2)).map (·.1))) := by
  induction items generalizing kept with
  | nil =>
    simp only [gather, Harvest.yield, List.mapM_nil, pure_bind, List.filter_nil, List.map_nil,
      List.append_nil]
  | cons item items ih =>
    have hstep (s : Session) : gather call frame body base (.kept kept) (item :: items) s =
        (push item >>= fun _ => singleResult call frame body base >>= fun result =>
          gather call frame body base ((Harvest.kept kept).bringIn item result) items) s := rfl
    have hkept (result : Value) (verdicts : List (Value × Bool)) :
        (if result.isTrue then kept ++ [item] else kept) ++ (verdicts.filter (·.2)).map (·.1) =
          kept ++ (((item, result.isTrue) :: verdicts).filter (·.2)).map (·.1) := by
      cases h : result.isTrue <;> simp
    funext s
    rw [hstep]
    simp only [bringIn_kept, ih, filterStep, List.mapM_cons, bind_assoc, pure_bind, hkept]

theorem gather_reduced (accumulator : Value) (items : List Value) :
    gather call frame body base (.reduced accumulator) items =
      items.foldlM (reduceStep call frame body base) accumulator >>= push := by
  induction items generalizing accumulator with
  | nil => simp only [gather, Harvest.yield, List.foldlM_nil, pure_bind]
  | cons item items ih =>
    have hstep (s : Session) :
        gather call frame body base (.reduced accumulator) (item :: items) s =
        (reduceStep call frame body base accumulator item >>= fun result =>
          gather call frame body base (.reduced result) items) s := rfl
    funext s
    rw [hstep]
    simp only [ih, List.foldlM_cons, bind_assoc]

end Loops

theorem only_bind {α : Type} (x : Eval α) (f : α → Eval Unit) :
    only (x >>= f) = x >>= fun a => only (f a) :=
  bind_assoc ..

/-- A primitive does first what it does by itself, and then what follows from that. -/
theorem invoke_eq (call : Caller) (operation : Primitive) :
    invoke call operation = start operation >>= pursue call := by
  cases operation with
  | map =>
    simp only [invoke, map, start, only_bind, bind_assoc, pure_bind, pursue, gather_mapped,
      List.nil_append]
  | filter =>
    simp only [invoke, filter, start, only_bind, bind_assoc, pure_bind, pursue, gather_kept,
      List.nil_append]
  | fold =>
    simp only [invoke, fold, reduce, start, only_bind, bind_assoc, pure_bind, pursue,
      gather_reduced]
  | fold1 =>
    simp only [invoke, fold1, start, only_bind, bind_assoc]
    congr 1
    funext operands
    obtain ⟨items, body⟩ := operands
    cases items with
    | nil => rfl
    | cons first rest =>
      simp only [reduce, only_bind, bind_assoc, pure_bind, pursue, gather_reduced]
  | iterate => simp only [invoke, iterate, start, only_bind, bind_assoc, pure_bind, pursue]
  | choose =>
    simp only [invoke, choose, start, only_bind, bind_assoc]
    congr 1
    funext operands
    obtain ⟨condition, whenTrue, whenFalse⟩ := operands
    simp only
    cases if condition != 0 then whenTrue else whenFalse with
    | quotation body => rfl
    | _ => rfl
  | apply =>
    simp only [invoke, apply, start, bind_assoc]
    congr 1
    funext value
    cases value <;> rfl
  | _ => simp only [invoke, start, only, bind_assoc, pure_bind, pursue]

/-- The reference to a word that is to be executed next has been taken off the stack. -/
theorem height_lt_of_start {operation : Primitive} {s t : Session} {next : String}
    (h : start operation s = .ok (.word next) t) : t.stack.height < s.stack.height := by
  have hi : invoke noCall operation s = .ok (some next) t := by
    rw [invoke_eq]
    exact bind_of_ok h
  exact height_lt_of_invoke hi

section Execute
variable {call : Caller} {name : String} {operation : Primitive} {s t : Session}
  (hl : s.dictionary.lookup? name = some (.primitive operation))
include hl

theorem execute_of_error {error : EvalError} (hq : start operation s = .error error t) :
    execute call name s = .error (error.atWord name) t := by
  apply execute_primitive_error hl
  rw [invoke_eq]
  exact bind_of_error hq

theorem execute_of_word {next : String} (hq : start operation s = .ok (.word next) t) :
    execute call name s = nameWord name (execute call next t) := by
  apply execute_primitive_next hl
  rw [invoke_eq]
  exact bind_of_ok hq

theorem execute_of_only {q : Sequel} {act : Eval Unit} (hq : start operation s = .ok q t)
    (ha : pursue call q = only act) : execute call name s = nameWord name (act t) := by
  have hi : invoke call operation s = only act t := by
    rw [invoke_eq, bind_of_ok hq, ha]
  cases hr : act t with
  | ok _ u =>
    rw [only, bind_of_ok hr] at hi
    exact execute_primitive_ok hl hi
  | error error u =>
    rw [only, bind_of_error hr] at hi
    exact execute_primitive_error hl hi

end Execute

end Eval

open Eval

namespace Moment

/-- The moment at which a computation has ended inside the frames. -/
def ended (frames : List Frame) : EStateM.Result EvalError Session Unit → Moment :=
  after (fun _ => .proceed .finished) frames

/-- What is around a computation once it has ended: an error leaves the frame, and else the frame
goes on. -/
def resumed (frames : List Frame) (frame : Frame) : EStateM.Result EvalError Session Unit → Moment
  | .ok () s => resume frames s frame
  | .error error s => ⟨.raise (frame.note error), frames, frame.leave s⟩

theorem resumed_primitive (frames : List Frame) (name : String) (operation : Primitive)
    (r : EStateM.Result EvalError Session Unit) :
    resumed frames (.primitive name operation) r = ended frames (nameWord name r) := by
  cases r <;> rfl

theorem resumed_applied (frames : List Frame) (r : EStateM.Result EvalError Session Unit) :
    resumed frames .applied r = ended frames r := by
  cases r <;> rfl

theorem resumed_scope (frames : List Frame) (body : Eval Unit) (s : Session) :
    resumed frames .scope (body (scopeEntered s)) = ended frames (arrayScope body s) := by
  rw [arrayScope]
  cases body (scopeEntered s) <;> rfl

theorem resumed_call (frames : List Frame) (name : String) (body : Eval Unit) (s : Session) :
    resumed frames (.call name) (body { s with depth := s.depth + 1 }) =
      ended frames (inFrame name body s) := by
  rw [inFrame]
  cases body { s with depth := s.depth + 1 } <;> rfl

theorem Leads.resumed {m : Moment} {frames : List Frame} {frame : Frame}
    {r : EStateM.Result EvalError Session Unit} (h : m.Leads (ended (frame :: frames) r)) :
    m.Leads (resumed frames frame r) := by
  cases r <;> exact .tail h rfl

end Moment

open Moment

section Evaluator
variable {settings : Settings} {depth : Nat}

/-- The task leads where `r` ends, whatever is open around it, and the level of nesting is not
left. -/
structure Arrives (settings : Settings) (depth : Nat) (task : Task) (s : Session)
    (r : EStateM.Result EvalError Session Unit) : Prop where
  leads : ∀ frames, Leads ⟨task, frames, s⟩ (ended frames r)
  keeps : (finalState r).At settings depth

/-- From every session on this level of nesting the task leads where the computation ends. -/
def Follows (settings : Settings) (depth : Nat) (x : Eval Unit) (task : Task) : Prop :=
  ∀ s : Session, s.At settings depth → Arrives settings depth task s (x s)

theorem Session.Beside.at {reads writes : Prop} {s t : Session} (h : s.Beside reads writes t)
    (hs : s.At settings depth) : t.At settings depth :=
  ⟨h.settings.trans hs.settings, h.depth.trans hs.depth⟩

theorem Plain.at {α : Type} {reads writes : Prop} {K : ErrorKind → Prop} {P : α → Prop}
    {x : Eval α} (h : Plain .any reads writes K P x) {s : Session} (hs : s.At settings depth) :
    (finalState (x s)).At settings depth :=
  (h.beside s).at hs

namespace Follows
variable {call : Caller}
  (hc : ∀ frame body, Follows settings depth (call frame body) (.proceed (.call frame body)))
include hc

theorem again (frame : String) (body : List Token) (count : Nat) :
    Follows settings depth (times (call frame body) count)
      (.proceed (.again frame body count)) := by
  induction count with
  | zero => exact fun _ hs => ⟨fun _ => .of_step rfl, hs⟩
  | succ count ih =>
    intro s hs
    have hbody := hc frame body s hs
    cases hr : call frame body s with
    | ok _ t =>
      rw [hr] at hbody
      have hrest := ih t hbody.keeps
      rw [times, bind_of_ok hr]
      refine ⟨fun frames => .cons rfl ?_, hrest.keeps⟩
      exact (hbody.leads (.again frame body count :: frames)).resumed.trans (hrest.leads frames)
    | error error t =>
      rw [hr] at hbody
      rw [times, bind_of_error hr]
      refine ⟨fun frames => .cons rfl ?_, hbody.keeps⟩
      exact (hbody.leads (.again frame body count :: frames)).resumed

/-- By induction on the items that are left. -/
theorem gather (frame : String) (body : List Token) (base : Nat) (harvest : Harvest)
    (items : List Value) : Follows settings depth (Eval.gather call frame body base harvest items)
      (.proceed (.gather ⟨frame, body, base, harvest, items⟩)) := by
  induction items generalizing harvest with
  | nil => exact fun _ hs => ⟨fun _ => .of_step rfl, hs.settings, hs.depth⟩
  | cons item items ih =>
    intro s hs
    -- the operands of the body change neither the level nor the mark of the watch outside
    have hoffer : (watchEntered (harvest.offer item s)).At settings depth := by
      cases harvest <;> exact ⟨hs.settings, hs.depth⟩
    have hmark : (harvest.offer item s).stack.mark = s.stack.mark := by
      cases harvest <;> rfl
    have hgather : Eval.gather call frame body base harvest (item :: items) s =
        (watching (call frame body) >>= fun low => accept low base >>= fun result =>
          Eval.gather call frame body base (harvest.bringIn item result) items)
            (harvest.offer item s) := by
      simp only [Eval.gather, singleResult, accept, bind_assoc]
    have hbody := hc frame body _ hoffer
    have hleads (frames : List Frame) := (hbody.leads (.watch s.stack.mark item
      ⟨frame, body, base, harvest, items⟩ :: frames)).resumed
    rw [hgather]
    cases hr : call frame body (watchEntered (harvest.offer item s)) with
    | error error t =>
      -- the watch is left, and nothing is accepted
      rw [hr] at hbody hleads
      rw [bind_of_error (watching_of_error hr), hmark]
      exact ⟨fun frames => .cons rfl (hleads frames), hbody.keeps.settings, hbody.keeps.depth⟩
    | ok _ t =>
      rw [hr] at hbody hleads
      rw [bind_of_ok (watching_of_ok hr), hmark]
      have ht : (watchLeft s.stack.mark t).At settings depth :=
        ⟨hbody.keeps.settings, hbody.keeps.depth⟩
      have hk := (Plain.accept (S := .any) t.stack.mark base).at ht
      -- the frame of the watch goes on with what the combinator accepts
      have hresumed (frames : List Frame) : Moment.resumed frames (.watch s.stack.mark item
            ⟨frame, body, base, harvest, items⟩) (.ok () t) =
          after (fun result => .proceed
              (.gather ⟨frame, body, base, harvest.bringIn item result, items⟩))
            frames (accept t.stack.mark base (watchLeft s.stack.mark t)) := rfl
      simp only [hresumed] at hleads
      cases ha : accept t.stack.mark base (watchLeft s.stack.mark t) with
      | ok result u =>
        rw [ha] at hleads hk
        rw [bind_of_ok ha]
        have hrest := ih (harvest.bringIn item result) u hk
        exact ⟨fun frames => .cons rfl ((hleads frames).trans (hrest.leads frames)), hrest.keeps⟩
      | error error u =>
        rw [ha] at hleads hk
        rw [bind_of_error ha]
        exact ⟨fun frames => .cons rfl (hleads frames), hk⟩

/-- A sequel is a computation after which no word is left to execute, or it is a word. -/
theorem sequel (q : Sequel) : (∃ name, q = .word name) ∨
    ∃ act, pursue call q = only act ∧ Follows settings depth act (.proceed q) := by
  cases q with
  | finished => exact .inr ⟨pure (), rfl, fun _ hs => ⟨fun _ => .refl, hs⟩⟩
  | call frame body => exact .inr ⟨_, rfl, hc frame body⟩
  | again frame body count => exact .inr ⟨_, rfl, again hc frame body count⟩
  | gather loop =>
    obtain ⟨frame, body, base, harvest, items⟩ := loop
    exact .inr ⟨_, rfl, gather hc frame body base harvest items⟩
  | word name => exact .inl ⟨name, rfl⟩

/-- An applied word is executed on a smaller stack, so the induction is on its height. -/
theorem execute_arrives (name : String) {s : Session} (hs : s.At settings depth) :
    Arrives settings depth (.execute name) s (Eval.execute call name s) := by
  have hstep (frames : List Frame) {m : Moment} (h : executeStep frames s name = m) :
      (⟨.execute name, frames, s⟩ : Moment).step = some m :=
    congrArg some h
  cases hl : s.dictionary.lookup? name with
  | none =>
    rw [execute_unknown hl]
    refine ⟨fun frames => .of_step (hstep frames ?_), hs⟩
    simp only [executeStep, hl]
    rfl
  | some definition =>
    cases definition with
    | user body =>
      rw [execute_user hl]
      have hbody := hc name body s hs
      refine ⟨fun frames => .cons (hstep frames ?_) (hbody.leads frames), hbody.keeps⟩
      simp only [executeStep, hl]
    | primitive operation =>
      have hk := (Plain.start (S := .any) operation).at hs
      have hfirst (frames : List Frame) : (⟨.execute name, frames, s⟩ : Moment).step =
          some (after .proceed (.primitive name operation :: frames) (start operation s)) := by
        apply hstep
        simp only [executeStep, hl]
      cases hq : start operation s with
      | error error t =>
        rw [hq] at hk
        simp only [hq] at hfirst
        rw [execute_of_error hl hq]
        exact ⟨fun frames => .cons (hfirst frames) (.of_step rfl), hk⟩
      | ok q t =>
        have ht : t.At settings depth := by
          rw [hq] at hk
          exact hk
        simp only [hq] at hfirst
        rcases sequel hc q with ⟨next, rfl⟩ | ⟨act, hact, hfollows⟩
        · -- an applied reference: its word runs inside the primitive
          have hlt := height_lt_of_start hq
          have hnext := execute_arrives next ht
          rw [execute_of_word hl hq]
          refine ⟨fun frames => .cons (hfirst frames) (.cons rfl ?_), ?_⟩
          · have h := (hnext.leads (.applied :: .primitive name operation :: frames)).resumed
            rw [resumed_applied] at h
            exact resumed_primitive .. ▸ h.resumed
          · rw [finalState_nameWord]
            exact hnext.keeps
        · have hdone := hfollows t ht
          rw [execute_of_only hl hq hact]
          refine ⟨fun frames => .cons (hfirst frames) ?_, ?_⟩
          · have h := (hdone.leads (.primitive name operation :: frames)).resumed
            exact resumed_primitive .. ▸ h
          · rw [finalState_nameWord]
            exact hdone.keeps
termination_by s.stack.height

omit hc in
/-- The tokens that follow run once the first part has ended inside a frame for them. -/
theorem rest {x y : Eval Unit} {task : Task} {tokens : List Token}
    (hx : ∀ s : Session, s.At settings depth →
      (∀ frames, Leads ⟨task, frames, s⟩ (Moment.resumed frames (.rest tokens) (x s))) ∧
        (finalState (x s)).At settings depth)
    (hy : Follows settings depth y (.run tokens)) :
    Follows settings depth (x >>= fun _ => y) task := by
  intro s hs
  obtain ⟨h, hk⟩ := hx s hs
  cases hr : x s with
  | ok _ t =>
    rw [hr] at h hk
    rw [bind_of_ok hr]
    have hrest := hy t hk
    exact ⟨fun frames => (h frames).trans (hrest.leads frames), hrest.keeps⟩
  | error error t =>
    rw [hr] at h hk
    rw [bind_of_error hr]
    exact ⟨h, hk⟩

/-- By induction on the number of tokens. -/
theorem run (tokens : List Token) :
    Follows settings depth (Eval.run call tokens) (.run tokens) := by
  cases tokens with
  | nil =>
    rw [run_nil]
    exact fun _ hs => ⟨fun _ => .of_step rfl, hs⟩
  | cons token rest =>
    obtain ⟨kind, position⟩ := token
    cases kind with
    | number value =>
      rw [run_number]
      intro s hs
      have hrest := run rest (s.pushed (.number value)) ⟨hs.settings, hs.depth⟩
      exact ⟨fun frames => .cons rfl (hrest.leads frames), hrest.keeps⟩
    | quoted name =>
      rw [run_quoted]
      intro s hs
      have hrest := run rest (s.pushed (.reference name)) ⟨hs.settings, hs.depth⟩
      exact ⟨fun frames => .cons rfl (hrest.leads frames), hrest.keeps⟩
    | word name =>
      rw [run_word]
      refine Follows.rest (fun s hs => ?_) (run rest)
      have hword := execute_arrives hc name hs
      exact ⟨fun frames => .cons rfl (hword.leads _).resumed, hword.keeps⟩
    | closer bracket =>
      rw [run_closer]
      exact fun _ hs => ⟨fun _ => .of_step rfl, hs⟩
    | opener bracket =>
      cases hsplit : Token.splitAtCloser 0 rest with
      | none =>
        rw [run_unclosed call bracket position hsplit]
        refine fun s hs => ⟨fun frames => .of_step ?_, hs⟩
        simp only [Moment.step, runStep, hsplit]
        rfl
      | some parts =>
        obtain ⟨body, after⟩ := parts
        have hlen := Token.length_of_splitAtCloser hsplit
        rw [run_opener call bracket position hsplit]
        cases bracket with
        | brace =>
          intro s hs
          have hrest := run after (s.pushed (.quotation body)) ⟨hs.settings, hs.depth⟩
          have hstep (frames : List Frame) :
              (⟨.run (⟨.opener .brace, position⟩ :: rest), frames, s⟩ : Moment).step =
                some ⟨.run after, frames, s.pushed (.quotation body)⟩ := by
            simp only [Moment.step, runStep, hsplit]
          exact ⟨fun frames => .cons (hstep frames) (hrest.leads frames), hrest.keeps⟩
        | square =>
          refine Follows.rest (fun s hs => ?_) (run after)
          have hbody := run body (scopeEntered s) ⟨hs.settings, hs.depth⟩
          have hstep (frames : List Frame) :
              (⟨.run (⟨.opener .square, position⟩ :: rest), frames, s⟩ : Moment).step =
                some ⟨.run body, .scope :: .rest after :: frames, scopeEntered s⟩ := by
            simp only [Moment.step, runStep, hsplit]
          refine ⟨fun frames => .cons (hstep frames) ?_, ?_⟩
          · have h := (hbody.leads (.scope :: .rest after :: frames)).resumed
            rw [resumed_scope] at h
            exact h.resumed
          · have hk := hbody.keeps
            rw [enclosed, arrayScope]
            generalize Eval.run call body (scopeEntered s) = r at hk
            cases r <;> exact ⟨hk.settings, hk.depth⟩
termination_by tokens.length
decreasing_by
  all_goals simp only [List.length_cons]
  all_goals omega

omit hc in
/-- By induction on the levels of nesting that are left. -/
theorem callWithin (frame : String) (body : List Token) :
    Follows settings depth (Eval.callWithin (settings.maxDepth - depth) frame body)
      (.proceed (.call frame body)) := by
  generalize hr : settings.maxDepth - depth = room
  induction room generalizing depth frame body with
  | zero =>
    have hlimit : settings.maxDepth ≤ depth := by omega
    refine fun s hs => ⟨fun frames => .of_step ?_, hs⟩
    simp only [Moment.step, callStep, hs.settings, hs.depth, if_pos hlimit, Eval.callWithin]
    rfl
  | succ room ih =>
    have hlimit : ¬ settings.maxDepth ≤ depth := by omega
    intro s hs
    have hcall (frame : String) (body : List Token) : Follows settings (depth + 1)
        (Eval.callWithin room frame body) (.proceed (.call frame body)) :=
      ih frame body (by omega)
    have hbody := run hcall body { s with depth := s.depth + 1 }
      ⟨hs.settings, congrArg (· + 1) hs.depth⟩
    refine ⟨fun frames => ?_, ?_⟩
    · have h := (hbody.leads (.call frame :: frames)).resumed
      rw [resumed_call] at h
      refine .cons ?_ h
      simp only [Moment.step, callStep, hs.settings, hs.depth, if_neg hlimit]
    · have hk := hbody.keeps
      rw [Eval.callWithin, inFrame]
      generalize Eval.run (Eval.callWithin room) body { s with depth := s.depth + 1 } = r at hk
      have hd : (finalState r).depth - 1 = depth := by rw [hk.depth, Nat.add_sub_cancel]
      cases r <;> exact ⟨hk.settings, hd⟩

end Follows

end Evaluator

/-- Whatever is open around it, the running of tokens leads where their evaluation ends. -/
theorem leads_evaluate (tokens : List Token) (frames : List Frame) (s : Session) :
    Leads ⟨.run tokens, frames, s⟩ (ended frames (evaluate tokens s)) :=
  (Follows.run Follows.callWithin tokens s ⟨rfl, rfl⟩).leads frames

/-- The evaluation of a source text, from its outset to its end. -/
theorem leads_load {source : String} {tokens : List Token} (h : tokenize source = .ok tokens)
    (s : Session) : (outset tokens s).Leads (ended [] (load source s)) := by
  rw [load_of_tokens h]
  exact leads_evaluate tokens [] { s with depth := 0 }

end StackCalc
