import StackCalc.Proofs.Log.Evaluator
import StackCalc.Proofs.Moments.Evaluation

/-!
The loops of `map`, `filter`, `fold` and `fold1`. The body is called once for each item, in order,
until a call fails or does not leave one result. Where each call computes a function of its
operands, the loop computes the list function of its name.
-/
namespace StackCalc

open Eval

/-- Invoked at `s`, the primitive has taken its operands, which leaves `t`, and is about to call
`body` for each of the items. -/
inductive Traverses (s : Session) :
    Primitive → List Token → Harvest → List Value → Session → Prop where
  | map {body : List Token} {items below : List Value} :
      s.stack.values = .quotation body :: .sequence items :: below →
      Traverses s .map body (.mapped []) items (s.dropped 2)
  | filter {body : List Token} {items below : List Value} :
      s.stack.values = .quotation body :: .sequence items :: below →
      Traverses s .filter body (.kept []) items (s.dropped 2)
  | fold {body : List Token} {start : Value} {items below : List Value} :
      s.stack.values = .quotation body :: start :: .sequence items :: below →
      Traverses s .fold body (.reduced start) items (s.dropped 3)
  | fold1 {body : List Token} {first : Value} {items below : List Value} :
      s.stack.values = .quotation body :: .sequence (first :: items) :: below →
      Traverses s .fold1 body (.reduced first) items (s.dropped 2)

/-- The body has been called for each of the items, in order, and each time one result was taken
from the stack. `calls` are the sessions that the calls have found. -/
inductive Rounds (call : Caller) (frame : String) (body : List Token) (base : Nat) :
    Harvest → Session → List Value → List Session → Harvest → Session → Prop where
  | done {harvest : Harvest} {s : Session} :
      Rounds call frame body base harvest s [] [] harvest s
  | round {harvest reached : Harvest} {item result : Value} {items : List Value}
      {calls : List Session} {s t u : Session} :
      singleResult call frame body base (harvest.offer item s) = .ok result t →
      Rounds call frame body base (harvest.bringIn item result) t items calls reached u →
      Rounds call frame body base harvest s (item :: items)
        (watchEntered (harvest.offer item s) :: calls) reached u

section Traversal
variable {call : Caller} {operation : Primitive} {frame : String} {body : List Token} {base : Nat}
  {harvest reached : Harvest} {items done left : List Value} {calls : List Session}
  {s t u : Session}

theorem Traverses.start (h : Traverses s operation body harvest items t) :
    Eval.start operation s =
      .ok (.gather ⟨operation.name, body, t.stack.height, harvest, items⟩) t := by
  cases h with
  | map hs | filter hs | fold1 hs =>
    rw [Eval.start, bind_of_ok (popSequenceBody_of_operands hs)]
    rfl
  | fold hs =>
    have ho := onStack_eq_ok.2 ⟨_, Stack.popSequenceStartBody_eq_ok.2 ⟨_, hs, rfl⟩, rfl⟩
    rw [Eval.start, bind_of_ok ho]
    rfl

theorem Traverses.invoke (h : Traverses s operation body harvest items t) :
    Eval.invoke call operation s =
      only (gather call operation.name body t.stack.height harvest items) t := by
  rw [invoke_eq, bind_of_ok h.start]
  rfl

theorem Traverses.mark_le (h : Traverses s operation body harvest items t) :
    t.stack.mark ≤ t.stack.height := by
  cases h <;> exact Nat.min_le_right _ _

/-- No result is taken: the call has failed, or what it has left is no single result. -/
theorem singleResult_eq_error {error : EvalError}
    (h : singleResult call frame body base s = .error error t) : ∃ v,
      t = watchLeft s.stack.mark v ∧
      (call frame body (watchEntered s) = .error error v ∨
        call frame body (watchEntered s) = .ok () v ∧
          ∃ found, error = { kind := .arity 1 found }) := by
  cases hr : call frame body (watchEntered s) with
  | error error v =>
    rw [singleResult_of_error hr] at h
    cases h
    exact ⟨v, rfl, .inl rfl⟩
  | ok _ v =>
    rw [singleResult_of_ok hr] at h
    split at h
    · cases h
      exact ⟨v, rfl, .inr ⟨rfl, _, rfl⟩⟩
    next hn =>
      -- one value stands above `base`, and it can be taken
      obtain ⟨-, hheight⟩ := not_or.1 hn
      have hlen := (watchLeft s.stack.mark v).stack.height_eq
      cases hv : (watchLeft s.stack.mark v).stack.values with
      | nil =>
        rw [hv] at hlen
        have hzero : v.stack.height = 0 := hlen
        omega
      | cons value rest =>
        obtain ⟨u, hp, -⟩ := Stack.pop_of_cons hv
        rw [onStack, hp] at h
        cases h

theorem gather_cons (call : Caller) (frame : String) (body : List Token) (base : Nat)
    (harvest : Harvest) (item : Value) (items : List Value) (s : Session) :
    gather call frame body base harvest (item :: items) s =
      (singleResult call frame body base >>= fun result =>
        gather call frame body base (harvest.bringIn item result) items) (harvest.offer item s) :=
  rfl

/-- What is left to do after the rounds is the loop over the items that are left. -/
theorem Rounds.gather (h : Rounds call frame body base harvest s done calls reached u)
    (left : List Value) :
    Eval.gather call frame body base harvest (done ++ left) s =
      Eval.gather call frame body base reached left u := by
  induction h with
  | done => rfl
  | round hr _ ih =>
    rw [List.cons_append, gather_cons, bind_of_ok hr]
    exact ih

/-- The loop gets through all items, or up to the first one that yields no result. -/
theorem exists_rounds (call : Caller) (frame : String) (body : List Token) (base : Nat)
    (harvest : Harvest) (items : List Value) (s : Session) : ∃ done left calls reached u,
      items = done ++ left ∧ Rounds call frame body base harvest s done calls reached u ∧
      (left = [] ∨ ∃ item later error v, left = item :: later ∧
        singleResult call frame body base (reached.offer item u) = .error error v) := by
  induction items generalizing harvest s with
  | nil => exact ⟨[], [], [], harvest, s, rfl, .done, .inl rfl⟩
  | cons item items ih =>
    cases hr : singleResult call frame body base (harvest.offer item s) with
    | error error v =>
      exact ⟨[], _, [], harvest, s, rfl, .done, .inr ⟨item, items, error, v, rfl, hr⟩⟩
    | ok result t =>
      obtain ⟨done, left, calls, reached, u, rfl, hd, hl⟩ := ih (harvest.bringIn item result) t
      exact ⟨item :: done, left, _, reached, u, rfl, .round hr hd, hl⟩

end Traversal

/-! What the loops log: the calls of the body. -/

namespace Log

section Loops
variable {call : Caller} (log : CallLog call) (frame : String) (body : List Token) (base : Nat)

def gather : (harvest : Harvest) → (items : List Value) →
    Log (Eval.gather call frame body base harvest items)
  | _, [] => silent
  | harvest, item :: items => fun s =>
    bind (singleResult log frame body base)
      (fun result => gather (harvest.bringIn item result) items) (harvest.offer item s)

theorem gather_cons (harvest : Harvest) (item : Value) (items : List Value) (s : Session) :
    gather log frame body base harvest (item :: items) s =
      bind (singleResult log frame body base)
        (fun result => gather log frame body base (harvest.bringIn item result) items)
        (harvest.offer item s) := rfl

theorem mapM_mapStep (results items : List Value) (s : Session) :
    mapM (mapStep log frame body base) items s =
      gather log frame body base (.mapped results) items s := by
  induction items generalizing results s with
  | nil => rfl
  | cons item items ih =>
    have hitem : mapM (mapStep log frame body base) (item :: items) s =
        bind (singleResult log frame body base)
          (fun b => bind (mapM (mapStep log frame body base) items) fun bs =>
            silent (x := pure (b :: bs))) (s.pushed item) := rfl
    rw [hitem, gather_cons, Harvest.offer]
    cases hr : Eval.singleResult call frame body base (s.pushed item) with
    | ok result t => rw [bind_of_ok hr, bind_of_ok hr, bind_silent, ih, Harvest.bringIn]
    | error error t => rw [bind_of_error hr, bind_of_error hr]

theorem mapM_filterStep (kept items : List Value) (s : Session) :
    mapM (filterStep log frame body base) items s =
      gather log frame body base (.kept kept) items s := by
  induction items generalizing kept s with
  | nil => rfl
  | cons item items ih =>
    have hitem : mapM (filterStep log frame body base) (item :: items) s =
        bind (filterStep log frame body base item)
          (fun b => bind (mapM (filterStep log frame body base) items) fun bs =>
            silent (x := pure (b :: bs))) s := rfl
    have hstep : filterStep log frame body base item s =
        singleResult log frame body base (s.pushed item) := bind_silent _
    rw [hitem, gather_cons, Harvest.offer]
    cases hr : Eval.singleResult call frame body base (s.pushed item) with
    | ok result t =>
      have hv : Eval.filterStep call frame body base item s = .ok (item, result.isTrue) t :=
        StackCalc.bind_of_ok (x := Eval.singleResult call frame body base) hr
      rw [bind_of_ok hv, bind_of_ok hr, bind_silent, hstep, bringIn_kept, ih]
    | error error t =>
      have hv : Eval.filterStep call frame body base item s = .error error t :=
        StackCalc.bind_of_error (x := Eval.singleResult call frame body base) hr
      rw [bind_of_error hv, bind_of_error hr, hstep]

theorem foldlM_reduceStep (accumulator : Value) (items : List Value) (s : Session) :
    foldlM (reduceStep log frame body base) items accumulator s =
      gather log frame body base (.reduced accumulator) items s := by
  induction items generalizing accumulator s with
  | nil => rfl
  | cons item items ih =>
    have hitem : foldlM (reduceStep log frame body base) (item :: items) accumulator s =
        bind (singleResult log frame body base)
          (fun b => foldlM (reduceStep log frame body base) items b)
          ((s.pushed accumulator).pushed item) := rfl
    rw [hitem, gather_cons, Harvest.offer]
    cases hr : Eval.singleResult call frame body base ((s.pushed accumulator).pushed item) with
    | ok result t => rw [bind_of_ok hr, bind_of_ok hr, ih, Harvest.bringIn]
    | error error t => rw [bind_of_error hr, bind_of_error hr]

end Loops

section Calls
variable {call : Caller} (log : CallLog call) {operation : Primitive} {frame : String}
  {body : List Token} {base : Nat} {harvest reached : Harvest} {items done left : List Value}
  {calls : List Session} {s t u : Session}

theorem only_apply {act : Eval Unit} (log : Log act) (s : Session) : only log s = log s :=
  bind_silent s

/-- The primitive, and then what its loop logs. -/
theorem invoke_of_traverses (h : Traverses s operation body harvest items t) :
    invoke log operation s =
      ⟨operation, s⟩ :: gather log operation.name body t.stack.height harvest items t := by
  cases h with
  | @map body items below hs =>
    have hloop : map log Primitive.map.name s = ⟨.map, s⟩ ::
        mapM (mapStep log Primitive.map.name body (s.dropped 2).stack.height) items (s.dropped 2) :=
      congrArg _ ((bind_of_ok (popSequenceBody_of_operands hs)).trans (bind_silent _))
    refine (@only_apply (Eval.map call _) _ _).trans ?_
    rw [hloop, mapM_mapStep]
  | @filter body items below hs =>
    have hloop : filter log Primitive.filter.name s = ⟨.filter, s⟩ ::
        mapM (filterStep log Primitive.filter.name body (s.dropped 2).stack.height) items
          (s.dropped 2) :=
      congrArg _ ((bind_of_ok (popSequenceBody_of_operands hs)).trans (bind_silent _))
    refine (@only_apply (Eval.filter call _) _ _).trans ?_
    rw [hloop, mapM_filterStep]
  | @fold body start items below hs =>
    have ho : onStack Stack.popSequenceStartBody s = .ok (items, start, body) (s.dropped 3) :=
      onStack_eq_ok.2 ⟨_, Stack.popSequenceStartBody_eq_ok.2 ⟨below, hs, rfl⟩, rfl⟩
    have hloop : fold log Primitive.fold.name s = ⟨.fold, s⟩ ::
        foldlM (reduceStep log Primitive.fold.name body (s.dropped 3).stack.height) items start
          (s.dropped 3) :=
      congrArg _ ((bind_of_ok ho).trans (bind_silent _))
    refine (@only_apply (Eval.fold call _) _ _).trans ?_
    rw [hloop, foldlM_reduceStep]
  | @fold1 body first items below hs =>
    have hloop : fold1 log Primitive.fold1.name s = ⟨.fold1, s⟩ ::
        foldlM (reduceStep log Primitive.fold1.name body (s.dropped 2).stack.height) items first
          (s.dropped 2) :=
      congrArg _ ((bind_of_ok (popSequenceBody_of_operands hs)).trans (bind_silent _))
    refine (@only_apply (Eval.fold1 call _) _ _).trans ?_
    rw [hloop, foldlM_reduceStep]

theorem gather_of_rounds (h : Rounds call frame body base harvest s done calls reached u)
    (left : List Value) : gather log frame body base harvest (done ++ left) s =
      calls.flatMap (fun found => log frame body found) ++
        gather log frame body base reached left u := by
  induction h with
  | done => rfl
  | round hr _ ih =>
    rw [List.cons_append, gather_cons, bind_of_ok hr, singleResult_apply, ih]
    exact (List.append_assoc ..).symm

end Calls

end Log

/-! Bodies that compute a function of their operands. -/

/-- Called one level deeper with `operands` on top, the body leaves `result` in their place. It
takes nothing off below them, moves nothing there, and has no other effect. -/
structure Session.Computes (s : Session) (body : List Token) (operands : List Value)
    (result : Value) : Prop where
  room : s.depth < s.settings.maxDepth
  leaves : ∃ left : Stack, left.values = result :: s.stack.values ∧ s.stack.height ≤ left.mark ∧
    evaluate body { watchEntered (operands.foldl Session.pushed s) with depth := s.depth + 1 } =
      .ok () { s with stack := left, depth := s.depth + 1 }

theorem Session.dictionary_foldl_pushed (operands : List Value) (s : Session) :
    (operands.foldl Session.pushed s).dictionary = s.dictionary := by
  induction operands generalizing s with
  | nil => rfl
  | cons operand operands ih => exact ih (s.pushed operand)

/-- The body may be a single word. -/
theorem Session.Computes.of_primitive {s : Session} {name : String} {operation : Primitive}
    {operands : List Value} {result : Value} {left : Stack} (position : Text.Position)
    (hl : s.dictionary.lookup? name = some (.primitive operation))
    (hroom : s.depth < s.settings.maxDepth)
    (hi : ∀ call, invoke call operation
      { watchEntered (operands.foldl Session.pushed s) with depth := s.depth + 1 } =
        .ok none { s with stack := left, depth := s.depth + 1 })
    (hv : left.values = result :: s.stack.values) (hm : s.stack.height ≤ left.mark) :
    s.Computes [⟨.word name, position⟩] operands result := by
  refine ⟨hroom, left, hv, hm, ?_⟩
  rw [evaluate, run_single]
  refine execute_primitive_ok ?_ (hi _)
  rw [watchEntered, Session.dictionary_foldl_pushed]
  exact hl

namespace Harvest

/-- The operands of the body, in the order in which they are pushed. -/
def operands (item : Value) : Harvest → List Value
  | mapped _ | kept _ => [item]
  | reduced accumulator => [accumulator, item]

theorem offer_eq (harvest : Harvest) (item : Value) (s : Session) :
    harvest.offer item s = (harvest.operands item).foldl Session.pushed s := by
  cases harvest <;> rfl

/-- What has been made of the items if the body makes `f` of each. -/
def after (f : Harvest → Value → Value) (harvest : Harvest) (items : List Value) : Harvest :=
  items.foldl (fun harvest item => harvest.bringIn item (f harvest item)) harvest

theorem after_mapped (F : Value → Value) (results items : List Value) :
    (mapped results).after (fun _ => F) items = mapped (results ++ items.map F) := by
  induction items generalizing results with
  | nil => rw [List.map_nil, List.append_nil]; rfl
  | cons item items ih =>
    refine (ih (results ++ [F item])).trans ?_
    rw [List.map_cons, List.append_assoc, List.singleton_append]

theorem after_kept (F : Value → Value) (kept items : List Value) :
    (Harvest.kept kept).after (fun _ => F) items =
      .kept (kept ++ items.filter fun item => (F item).isTrue) := by
  induction items generalizing kept with
  | nil => rw [List.filter_nil, List.append_nil]; rfl
  | cons item items ih =>
    have hafter : (Harvest.kept kept).after (fun _ => F) (item :: items) =
        ((Harvest.kept kept).bringIn item (F item)).after (fun _ => F) items := rfl
    rw [hafter, bringIn_kept, ih, List.filter_cons]
    split <;> simp

theorem after_reduced (F : Value → Value → Value) (start : Value) (items : List Value) :
    (reduced start).after (fun harvest => F harvest.yield) items =
      reduced (items.foldl F start) := by
  induction items generalizing start with
  | nil => rfl
  | cons item items ih => exact ih (F start item)

end Harvest

section Computing
variable {s : Session} {body : List Token} {harvest : Harvest} {item result : Value}

/-- The result is taken, and the session is what it was before the operands were pushed. -/
theorem Session.Computes.singleResult (h : s.Computes body (harvest.operands item) result)
    (hm : s.stack.mark ≤ s.stack.height) (frame : String) :
    Eval.singleResult (callWithin s.room) frame body s.stack.height (harvest.offer item s) =
      .ok result s := by
  obtain ⟨left, hv, hmark, hrun⟩ := h.leaves
  rw [← Harvest.offer_eq] at hrun
  have hkept : (harvest.offer item s).settings = s.settings ∧
      (harvest.offer item s).depth = s.depth ∧
      (harvest.offer item s).stack.mark = s.stack.mark := by
    cases harvest <;> exact ⟨rfl, rfl, rfl⟩
  obtain ⟨hsettings, hdepth, houter⟩ := hkept
  -- what is offered lies on the stack, and nothing else has changed
  have hroom : s.room = (watchEntered (harvest.offer item s)).room := by
    rw [Session.room, ← hsettings, ← hdepth]
    rfl
  have hcall : callWithin s.room frame body (watchEntered (harvest.offer item s)) =
      .ok () { s with stack := left } := by
    rw [hroom, callWithin_room, if_neg]
    · refine inFrame_of_ok (t := { s with stack := left, depth := s.depth + 1 }) ?_
      rw [← hrun, ← hdepth]
      rfl
    · exact hsettings ▸ hdepth ▸ Nat.not_le.2 h.room
  -- one value is left above the base, and without it the stack is the old one, mark and all
  have hheight : left.height = s.stack.height + 1 := by
    rw [left.height_eq, hv, s.stack.height_eq, List.length_cons]
  obtain ⟨u, hp, hu, humark⟩ := Stack.pop_of_cons (s := left.unwatched s.stack.mark) hv
  have hus : u = s.stack := by
    apply Stack.ext hu
    have hleft : (left.unwatched s.stack.mark).mark = min s.stack.mark left.mark := rfl
    rw [humark, hleft, ← s.stack.height_eq]
    omega
  have hkeeps : ¬ (left.mark < s.stack.height ∨ left.height ≠ s.stack.height + 1) := by omega
  rw [singleResult_of_ok hcall, if_neg hkeeps, houter]
  refine onStack_eq_ok.2 ⟨u, hp, ?_⟩
  rw [hus]
  rfl

/-- Where each call of the body computes `f` of what it is offered, the rounds leave the session as
it was. -/
theorem rounds_of_computes (harvest : Harvest) (frame : String) (f : Harvest → Value → Value)
    (hm : s.stack.mark ≤ s.stack.height) {items : List Value}
    (h : ∀ done item later, items = done ++ item :: later →
      s.Computes body ((harvest.after f done).operands item) (f (harvest.after f done) item)) :
    ∃ calls, Rounds (callWithin s.room) frame body s.stack.height harvest s items calls
      (harvest.after f items) s := by
  induction items generalizing harvest with
  | nil => exact ⟨[], .done⟩
  | cons item items ih =>
    have hfirst : s.Computes body (harvest.operands item) (f harvest item) := h [] item items rfl
    obtain ⟨calls, hrest⟩ := ih (harvest.bringIn item (f harvest item))
      fun done next later hd => h (item :: done) next later (congrArg _ hd)
    exact ⟨_, .round (hfirst.singleResult hm frame) hrest⟩

theorem Traverses.invoke_of_computes {operation : Primitive} {items : List Value} {t : Session}
    (h : Traverses s operation body harvest items t) (f : Harvest → Value → Value)
    (hf : ∀ done item later, items = done ++ item :: later →
      t.Computes body ((harvest.after f done).operands item) (f (harvest.after f done) item)) :
    Eval.invoke (callWithin s.room) operation s =
      .ok none (t.pushed (harvest.after f items).yield) := by
  have hroom : s.room = t.room := by cases h <;> rfl
  obtain ⟨calls, hrounds⟩ := rounds_of_computes harvest operation.name f h.mark_le hf
  have hgather := hrounds.gather []
  rw [List.append_nil] at hgather
  rw [h.invoke, hroom]
  exact only_eq_ok.2 ⟨hgather, rfl⟩

end Computing

/-- `map`, `filter`, `fold` and `fold1` are the list functions of their names where the body
computes a function of its operands. Whatever the body does, it is called for one item after the
other, up to the first call that fails or that does not leave one result, and that error is the
outcome. -/
theorem combinator_traversal (s : Session) :
    (∀ body items below (F : Value → Value),
      s.stack.values = .quotation body :: .sequence items :: below →
      (∀ item ∈ items, (s.dropped 2).Computes body [item] (F item)) →
      invoke (callWithin s.room) .map s =
        .ok none ((s.dropped 2).pushed (.sequence (items.map F))) ∧
      invoke (callWithin s.room) .filter s =
        .ok none ((s.dropped 2).pushed (.sequence (items.filter fun item =>
          match F item with
          | .number value => value != 0
          | _ => false)))) ∧
    (∀ body start items below (F : Value → Value → Value),
      s.stack.values = .quotation body :: start :: .sequence items :: below →
      (∀ done item later, items = done ++ item :: later → (s.dropped 3).Computes body
        [done.foldl F start, item] (F (done.foldl F start) item)) →
      invoke (callWithin s.room) .fold s =
        .ok none ((s.dropped 3).pushed (items.foldl F start))) ∧
    (∀ body first items below (F : Value → Value → Value),
      s.stack.values = .quotation body :: .sequence (first :: items) :: below →
      (∀ done item later, items = done ++ item :: later → (s.dropped 2).Computes body
        [done.foldl F first, item] (F (done.foldl F first) item)) →
      invoke (callWithin s.room) .fold1 s =
        .ok none ((s.dropped 2).pushed (items.foldl F first))) ∧
    (∀ operation body harvest items t, Traverses s operation body harvest items t →
      ∃ done left calls reached u, items = done ++ left ∧
        Rounds (callWithin s.room) operation.name body t.stack.height harvest t done calls
          reached u ∧
        match invoke (callWithin s.room) operation s with
        | .ok next v => left = [] ∧ next = none ∧ v = u.pushed reached.yield ∧
            Log.invoke (Log.callWithin s.room) operation s =
              ⟨operation, s⟩ :: calls.flatMap fun found =>
                Log.callWithin s.room operation.name body found
        | .error error v => ∃ item later w, left = item :: later ∧
            let last := watchEntered (reached.offer item u)
            v = watchLeft u.stack.mark w ∧
            (callWithin s.room operation.name body last = .error error w ∨
              callWithin s.room operation.name body last = .ok () w ∧
                ∃ found, error = { kind := .arity 1 found }) ∧
            Log.invoke (Log.callWithin s.room) operation s =
              ⟨operation, s⟩ :: (calls ++ [last]).flatMap fun found =>
                Log.callWithin s.room operation.name body found) ∧
    (∀ operation body harvest t, Traverses s operation body harvest [] t →
      ∀ call, invoke call operation s = .ok none (t.pushed harvest.yield)) ∧
    ∀ body below, s.stack.values = .quotation body :: .sequence [] :: below →
      ∀ call, invoke call .fold1 s = .error { kind := .emptySequence } (s.dropped 2) := by
  refine ⟨?_, ?_, ?_, ?_, ?_, ?_⟩
  · intro body items below F hs hF
    -- these two offer the item alone, whatever has been brought in
    have hcalls (harvest : Harvest) (hop : ∀ item, harvest.operands item = [item]) :
        ∀ done item later, items = done ++ item :: later →
          (s.dropped 2).Computes body (harvest.operands item) (F item) := by
      rintro done item later rfl
      rw [hop]
      exact hF item (List.mem_append_right _ List.mem_cons_self)
    constructor
    · have h := (Traverses.map hs).invoke_of_computes (fun _ => F) fun done item later hd => by
        rw [Harvest.after_mapped]
        exact hcalls _ (fun _ => rfl) done item later hd
      rw [h, Harvest.after_mapped]
      rfl
    · have h := (Traverses.filter hs).invoke_of_computes (fun _ => F) fun done item later hd => by
        rw [Harvest.after_kept]
        exact hcalls _ (fun _ => rfl) done item later hd
      rw [h, Harvest.after_kept]
      rfl
  · intro body start items below F hs hF
    have h := (Traverses.fold hs).invoke_of_computes (fun harvest => F harvest.yield)
      fun done item later hd => by
        rw [Harvest.after_reduced]
        exact hF done item later hd
    rw [h, Harvest.after_reduced]
    rfl
  · intro body first items below F hs hF
    have h := (Traverses.fold1 hs).invoke_of_computes (fun harvest => F harvest.yield)
      fun done item later hd => by
        rw [Harvest.after_reduced]
        exact hF done item later hd
    rw [h, Harvest.after_reduced]
    rfl
  · intro operation body harvest items t ht
    obtain ⟨done, left, calls, reached, u, rfl, hrounds, hleft⟩ := exists_rounds
      (callWithin s.room) operation.name body t.stack.height harvest items t
    have hlog := Log.gather_of_rounds (Log.callWithin s.room) hrounds left
    refine ⟨done, left, calls, reached, u, rfl, hrounds, ?_⟩
    rw [Log.invoke_of_traverses (Log.callWithin s.room) ht, hlog, ht.invoke]
    rcases hleft with rfl | ⟨item, later, error, v, rfl, hr⟩
    · have h : only (gather (callWithin s.room) operation.name body t.stack.height harvest
          (done ++ [])) t = .ok none (u.pushed reached.yield) := by
        refine only_eq_ok.2 ⟨?_, rfl⟩
        rw [hrounds.gather]
        rfl
      rw [h]
      exact ⟨rfl, rfl, rfl, congrArg _ (List.append_nil _)⟩
    · have h : only (gather (callWithin s.room) operation.name body t.stack.height harvest
          (done ++ item :: later)) t = .error error v := by
        refine bind_of_error ?_
        rw [hrounds.gather, gather_cons, bind_of_error hr]
      -- the last call is the one that has failed
      have hlast : Log.gather (Log.callWithin s.room) operation.name body t.stack.height reached
          (item :: later) u =
            Log.callWithin s.room operation.name body (watchEntered (reached.offer item u)) := by
        rw [Log.gather_cons, Log.bind_of_error hr, Log.singleResult_apply]
      have hmark : (reached.offer item u).stack.mark = u.stack.mark := by
        cases reached <;> rfl
      obtain ⟨w, hw, hfail⟩ := singleResult_eq_error hr
      rw [h]
      refine ⟨item, later, w, rfl, hmark ▸ hw, hfail, ?_⟩
      rw [hlast, List.flatMap_append, List.flatMap_singleton]
  · intro operation body harvest t ht call
    rw [ht.invoke]
    rfl
  · intro body below hs call
    rw [invoke, fold1]
    refine bind_of_error ?_
    rw [bind_of_ok (popSequenceBody_of_operands hs)]
    rfl

/-- A session with the primitives and with `values` on the stack, the bottom first. -/
def operandsSession (values : List Value) : Session :=
  { Session.bare with stack := .ofBottom values }

/-- Takes its operand off and pushes a one. -/
def oneBody : List Token :=
  [⟨.word "pop", ⟨1, 1⟩⟩, ⟨.number 1, ⟨1, 5⟩⟩]

/-- Of two operands it leaves the lower one. -/
def dropBody : List Token :=
  [⟨.word "pop", ⟨1, 1⟩⟩]

section Witness
variable {t : Session} (hpop : t.dictionary.lookup? "pop" = some (.primitive .drop))
  (hroom : t.depth < t.settings.maxDepth)
include hpop hroom

theorem computes_oneBody (item : Value) : t.Computes oneBody [item] (.number 1) := by
  obtain ⟨left, hi, hv, hm⟩ : ∃ left, invoke (callWithin (t.settings.maxDepth - (t.depth + 1)))
      .drop { watchEntered (t.pushed item) with depth := t.depth + 1 } =
        .ok none { t with stack := left, depth := t.depth + 1 } ∧
      left.values = t.stack.values ∧ t.stack.height ≤ left.mark :=
    ⟨_, rfl, rfl, Nat.le_min.2 ⟨Nat.le_succ _, Nat.le_refl _⟩⟩
  have hx := execute_primitive_ok
    (s := { watchEntered (t.pushed item) with depth := t.depth + 1 }) hpop hi
  refine ⟨hroom, left.pushed (.number 1), congrArg _ hv, hm, ?_⟩
  rw [evaluate, oneBody, run_word]
  refine (bind_of_ok hx).trans ?_
  rw [run_number, run_nil]
  rfl

theorem computes_dropBody (accumulator item : Value) :
    t.Computes dropBody [accumulator, item] accumulator := by
  -- two values are above the base, and the upper one is taken off
  have hmark : t.stack.height ≤ min (t.stack.height + 2) (t.stack.height + 1) :=
    Nat.le_min.2 ⟨Nat.le_add_right _ 2, Nat.le_succ _⟩
  exact .of_primitive ⟨1, 1⟩ hpop hroom (fun _ => rfl) rfl hmark

end Witness

/-- A body that makes a one of everything, and one that keeps the accumulator. -/
theorem traversal_of_pop :
    (let s := operandsSession [.sequence [.reference "a", .sequence []], .quotation oneBody]
    invoke (callWithin s.room) .map s =
        .ok none ((s.dropped 2).pushed (.sequence [.number 1, .number 1])) ∧
      invoke (callWithin s.room) .filter s =
        .ok none ((s.dropped 2).pushed (.sequence [.reference "a", .sequence []]))) ∧
    (let s := operandsSession [.sequence [.reference "c"],
      .sequence [.reference "a", .reference "b"], .quotation dropBody]
    invoke (callWithin s.room) .fold s =
        .ok none ((s.dropped 3).pushed (.sequence [.reference "a", .reference "b"])) ∧
      invoke (callWithin s.room) .fold1 s =
        .ok none ((s.dropped 2).pushed (.reference "a"))) ∧
    (let s := operandsSession [.sequence [], .quotation dropBody]
    (∀ call, invoke call .map s = .ok none ((s.dropped 2).pushed (.sequence []))) ∧
      ∀ call, invoke call .fold1 s = .error { kind := .emptySequence } (s.dropped 2)) := by
  have hpop : Session.bare.dictionary.lookup? "pop" = some (.primitive .drop) := by decide +kernel
  refine ⟨?_, ?_, ?_⟩
  · intro s
    have hone := computes_oneBody (t := s.dropped 2) hpop (by decide)
    exact (combinator_traversal s).1 oneBody _ [] (fun _ => .number 1) rfl fun item _ => hone item
  · intro s
    have hfold := computes_dropBody (t := s.dropped 3) hpop (by decide)
    have hfold1 := computes_dropBody (t := s.dropped 2) hpop (by decide)
    constructor
    · exact (combinator_traversal s).2.1 dropBody _ _ [] (fun a _ => a) rfl
        fun done item _ _ => hfold _ item
    · exact (combinator_traversal s).2.2.1 dropBody _ _ _ (fun a _ => a) rfl
        fun done item _ _ => hfold1 _ item
  · intro s
    exact ⟨(combinator_traversal s).2.2.2.2.1 .map dropBody _ _ (.map rfl),
      (combinator_traversal s).2.2.2.2.2 dropBody [] rfl⟩

end StackCalc
